
import Xv6Armv8.FsCounts
import Xv6Armv8.FsInodes

/-! Reference counts over whole runs. A call that only walks paths and changes inodes leaves the tables of
files and processes alone, and gives back every reference it took; one that opens or closes a file, or changes
a directory or a process, moves references between the call and these tables. From the start on, after every
call, the counts are exactly the references in the tables, so the inode table is full only if files and
directories fill it. -/

namespace Xv6Armv8.Fs

open Spec FileTable StepRun Function Multiset Option

variable {c c' : Ctx} {T T' : Multiset Nat} {L : Finset Nat} {s t : State} {k dp ip p f : Nat}

/-! ### Calls that leave the tables alone -/

/-- The references are counted another way, and the tables of files and processes are changed so. -/
theorem Ok.rebase {o : Nat} {l : List Nat} (h : Ok c T L s) (hdisk : c'.disk → c.disk)
    (hrefs : ∀ k, c'.base k + T'.count k = c.base k + T.count k) :
    Ok c' T' L { s with ftable := c'.ftable, proc := c'.proc, outstanding := o, logged := l } where
  ftable := rfl
  proc := rfl
  refs := fun k => (h.refs k).trans (hrefs k).symm
  out := h.out
  uniq := h.uniq
  sub := fun k hk => by
    have hpos := h.ref_pos (h.sub k hk)
    rw [h.refs, ← hrefs] at hpos
    by_cases hT : k ∈ T'
    · exact .inl hT
    · rw [count_eq_zero_of_notMem hT] at hpos
      exact .inr (by simpa using hpos)
  locks := h.locks
  valid := h.valid
  disk := fun hc => (h.disk (hdisk hc)).revise rfl rfl rfl (fun _ _ => .inr rfl) fun j hj =>
    ⟨hj, rfl, rfl, (h.disk (hdisk hc)).sync j hj⟩

theorem Ok.op {o : Nat} {l : List Nat} (h : Ok c T L s) : Ok c T L { s with outstanding := o, logged := l } := by
  have ht : Ok c T L { s with ftable := c.ftable, proc := c.proc, outstanding := o, logged := l } :=
    h.rebase id fun _ => rfl
  rwa [← h.ftable, ← h.proc] at ht

theorem beginOp_ok (h : Ok c T L s) : Sat beginOp s (fun _ t => Ok c T L t) Low := by
  unfold beginOp
  rw [sat_bind, sat_get, sat_ite]
  exact ⟨fun _ => by simp [Low, noInodes, asleep], fun _ => h.op⟩

theorem endOp_ok (h : Ok c T L s) : Sat endOp s (fun _ t => Ok c T L t) Low := by
  unfold endOp
  rw [sat_bind, sat_get, sat_ite]
  exact ⟨fun _ => h.op, fun _ => h.op⟩

theorem endOp_ret {r : Int} (h : Ok c T L s) : Sat (do endOp; return r) s (fun _ t => Ok c T L t) Low := by
  rw [sat_bind]
  exact (endOp_ok h).imp fun _ _ ht => ht

theorem putOp_ok (h : Ok c (k ::ₘ T) ∅ s) : Sat (putOp k) s (fun _ t => Ok c T ∅ t) Low := by
  unfold putOp
  refine (beginOp_ok h).bind fun _ t ht => ?_
  rw [sat_bind]
  exact (iput_ok ht sub_empty).imp fun _ u hu => endOp_ok hu

theorem bail_ok (h : Ok c (ip ::ₘ T) {ip} s) : Sat (bail ip) s (fun _ t => Ok c T ∅ t) Low := by
  unfold bail
  rw [sat_bind]
  exact (iunlockput_one h).imp fun _ t ht => endOp_ret ht

variable {fd n other : Int} {ff : File} {ft : Ftable} {mem stored : Bool} {omode : Nat} {path : Option Path}

theorem makeNode_ok {type : Nat} {major minor : Int} (h : Ok c T ∅ s) (hp : c.HasCwd p) :
    Sat (makeNode p path type major minor) s (fun _ t => Ok c T ∅ t) (Full c (T.card + 2)) := by
  unfold makeNode
  refine ((beginOp_ok h).err Low.full).bind fun _ t ht => ?_
  cases path with
  | none => exact (endOp_ret ht).err Low.full
  | some path =>
    dsimp only
    refine (create_ok ht hp).bind fun r u hu => ?_
    cases r with
    | none => exact (endOp_ret hu).err Low.full
    | some ip =>
      dsimp only
      refine ((iunlockput_one hu).err Low.full).bind fun _ w hw => ?_
      exact (endOp_ret hw).err Low.full

theorem exec_ok {parts : List (Nat × Nat)} (h : Ok c T ∅ s) (hp : c.HasCwd p) :
    Sat (exec p path parts) s (fun _ t => Ok c T ∅ t) (Full c (T.card + 2)) := by
  unfold exec
  cases path with
  | none => exact h
  | some path =>
    dsimp only
    refine ((beginOp_ok h).err Low.full).bind fun _ t ht => ?_
    refine ((namei_ok ht hp).err fun he => he.mono (Nat.le_succ _)).bind fun r u hu => ?_
    cases r with
    | none => exact (endOp_ret hu).err Low.full
    | some ip =>
      dsimp only
      refine ((ilock_one hu (.inl (mem_cons_self ..))).err Low.full).bind fun _ w hw => ?_
      have hreads : Sat (parts.forM fun part => do
          let _ ← readi ip (fun _ => true) (u32 part.1) (u32 part.2)) w
          (fun _ t => Ok c (ip ::ₘ T) {ip} t) Low := by
        refine sat_forM (I := fun _ t => Ok c (ip ::ₘ T) {ip} t) hw fun i hi x hx => ?_
        rw [sat_bind]
        exact (readi_ok hx (Finset.mem_singleton_self ip)).imp fun _ _ hy => hy
      rw [sat_bind]
      refine hreads.mono (fun _ x hx => ?_) fun _ he => he.full
      refine ((iunlockput_one hx).err Low.full).bind fun _ y hy => ?_
      exact (endOp_ret hy).err Low.full

/-! ### unlink and link -/

theorem isdiremptyLoop_ok (hdp : dp ∈ L) : ∀ n off s, Ok c T L s →
    Sat (isdiremptyLoop dp n off) s (fun _ t => Ok c T L t) Low
  | 0, _, _, h => h
  | n + 1, off, s, h => by
    unfold isdiremptyLoop
    refine (readDirent_ok h hdp (by simp [Low, noInodes])).bind fun de t ht => ?_
    rw [sat_ite]
    exact ⟨fun _ => ht, fun _ => isdiremptyLoop_ok hdp n _ t ht⟩

theorem isFullDir_ok (h : Ok c T L s) (hip : ip ∈ L) : Sat (isFullDir ip) s (fun _ t => Ok c T L t) Low := by
  unfold isFullDir isdirempty
  rw [sat_bind, sat_get, sat_ite]
  refine ⟨fun _ => ?_, fun _ => h⟩
  rw [sat_bind, sat_bind, sat_get]
  exact (isdiremptyLoop_ok hip _ _ s h).imp fun _ _ ht => ht

theorem removeEntry_ok {off : Nat} (h : Ok c (ip ::ₘ dp ::ₘ T) (insert ip {dp}) s)
    (hne : ip ∉ ({dp} : Finset Nat)) : Sat (removeEntry dp ip off) s (fun _ t => Ok c T ∅ t) Low := by
  have hdp : dp ∈ insert ip ({dp} : Finset Nat) := Finset.mem_insert_of_mem (Finset.mem_singleton_self dp)
  unfold removeEntry writeDirent
  refine (writei_ok h hdp).bind fun r t ht => ?_
  rw [sat_ite]
  refine ⟨fun _ => by simp [Low, noInodes], fun _ => ?_⟩
  rw [sat_bind, sat_get]
  refine (unlinkParent_ok ht hdp).bind fun _ u hu => ?_
  refine (iunlockput_fst hu hne).bind fun _ w hw => ?_
  rw [sat_update]
  refine (update_ok keepsBlocks_nlink hw (Finset.mem_singleton_self ip)).imp fun _ x hx => ?_
  rw [sat_bind]
  exact (iunlockput_one hx).imp fun _ y hy => endOp_ret hy

theorem unlinkFound_ok {off : Nat} (h : Ok c (ip ::ₘ dp ::ₘ T) {dp} s) :
    Sat (unlinkFound dp ip off) s (fun _ t => Ok c T ∅ t) Low := by
  unfold unlinkFound
  refine (ilock_ok h (.inl (mem_cons_self ..))).bind fun _ t ⟨hne, ht⟩ => ?_
  rw [sat_bind, sat_get, sat_ite]
  refine ⟨fun _ => by simp [Low, noInodes], fun _ => ?_⟩
  refine (isFullDir_ok ht (Finset.mem_insert_self ..)).bind fun full u hu => ?_
  rw [sat_ite]
  refine ⟨fun _ => ?_, fun _ => removeEntry_ok hu hne⟩
  rw [sat_bind]
  exact (iunlockput_snd hu hne).imp fun _ w hw => bail_ok hw

theorem sysUnlink_ok (h : Ok c T ∅ s) (hp : c.HasCwd p) :
    Sat (sysUnlink p path) s (fun _ t => Ok c T ∅ t) (Full c (T.card + 2)) := by
  unfold sysUnlink nameiparent
  cases path with
  | none => exact h
  | some path =>
    dsimp only
    refine ((beginOp_ok h).err Low.full).bind fun _ t ht => ?_
    refine ((namex_ok ht hp).err fun he => he.mono (Nat.le_succ _)).bind fun r u hu => ?_
    cases r with
    | none => exact (endOp_ret hu).err Low.full
    | some x =>
      obtain ⟨dp, name⟩ := x
      dsimp only
      refine ((ilock_one hu (.inl (mem_cons_self ..))).err Low.full).bind fun _ w hw => ?_
      rw [sat_ite]
      refine ⟨fun _ => (bail_ok hw).err Low.full, fun _ => ?_⟩
      rw [sat_bind]
      refine (dirlookup_ok hw (Finset.mem_singleton_self dp)).mono (fun r x hx => ?_) fun _ he =>
        he.mono (by simp [withIp])
      cases r with
      | none => exact (bail_ok hx).err Low.full
      | some y => exact (unlinkFound_ok hx).err Low.full

theorem unlinkOld_ok (h : Ok c (ip ::ₘ T) ∅ s) : Sat (unlinkOld ip) s (fun _ t => Ok c T ∅ t) Low := by
  unfold unlinkOld
  refine (ilock_one h (.inl (mem_cons_self ..))).bind fun _ t ht => ?_
  rw [sat_update]
  exact (update_ok keepsBlocks_nlink ht (Finset.mem_singleton_self ip)).imp fun _ u hu => bail_ok hu

theorem linkIn_ok {name : Name} (h : Ok c (dp ::ₘ ip ::ₘ T) ∅ s) :
    Sat (linkIn dp ip name) s (fun _ t => Ok c T ∅ t) (Full c (T.card + 2)) := by
  unfold linkIn
  refine ((ilock_one h (.inl (mem_cons_self ..))).err Low.full).bind fun _ t ht => ?_
  -- both failures give the directory back and undo the link
  have hfail : ∀ u, Ok c (dp ::ₘ ip ::ₘ T) {dp} u →
      Sat (do iunlockput dp; unlinkOld ip) u (fun _ t => Ok c T ∅ t) (Full c (T.card + 2)) := by
    intro u hu
    refine ((iunlockput_one hu).err Low.full).bind fun _ w hw => ?_
    exact (unlinkOld_ok hw).err Low.full
  rw [sat_bind, sat_get, sat_ite]
  refine ⟨fun _ => hfail t ht, fun _ => ?_⟩
  rw [sat_bind]
  refine (dirlink_ok ht (Finset.mem_singleton_self dp)).mono (fun r u hu => ?_) fun _ he =>
    he.mono (by simp)
  rw [sat_ite]
  refine ⟨fun _ => hfail u hu, fun _ => ?_⟩
  refine ((iunlockput_one hu).err Low.full).bind fun _ w hw => ?_
  refine ((iput_ok hw sub_empty).err Low.full).bind fun _ x hx => ?_
  exact (endOp_ret hx).err Low.full

theorem linkInode_ok {new : Path} (h : Ok c (ip ::ₘ T) ∅ s) (hp : c.HasCwd p) :
    Sat (linkInode p ip new) s (fun _ t => Ok c T ∅ t) (Full c (T.card + 2)) := by
  unfold linkInode nameiparent
  refine ((ilock_one h (.inl (mem_cons_self ..))).err Low.full).bind fun _ t ht => ?_
  rw [sat_bind, sat_get, sat_ite]
  refine ⟨fun _ => (bail_ok ht).err Low.full, fun _ => ?_⟩
  rw [sat_update]
  refine (update_ok keepsBlocks_nlink ht (Finset.mem_singleton_self ip)).mono (fun _ u hu => ?_) fun _ he => he.full
  refine ((iunlock_one hu).err Low.full).bind fun _ w hw => ?_
  refine ((namex_ok hw hp).err fun he => he.mono (by simp)).bind fun r x hx => ?_
  cases r with
  | none => exact (unlinkOld_ok hx).err Low.full
  | some y => exact linkIn_ok hx

theorem sysLink_ok {old new : Option Path} (h : Ok c T ∅ s) (hp : c.HasCwd p) :
    Sat (sysLink p old new) s (fun _ t => Ok c T ∅ t) (Full c (T.card + 2)) := by
  unfold sysLink
  split
  · refine ((beginOp_ok h).err Low.full).bind fun _ t ht => ?_
    refine ((namei_ok ht hp).err fun he => he.mono (Nat.le_succ _)).bind fun r u hu => ?_
    cases r with
    | none => exact (endOp_ret hu).err Low.full
    | some ip => exact linkInode_ok hu hp
  · exact h

/-! ### Calls that move references -/

/-- The references that the tables have, as a call finds them. -/
def ctxOf (P : Prop) (ft : Ftable) (proc : Nat → Proc) : Ctx where
  disk := P
  base := baseOf ft proc
  nonneg := fun k => by
    unfold baseOf
    omega
  ftable := ft
  proc := proc

/-- A call in the middle of its work: the balance of its references to open files, its references to inodes,
its locks, and the processes that it is changing. -/
structure Mid (P : Prop) (X : Nat → Prop) (F : Nat → Int) (T : Multiset Nat) (L : Finset Nat) (s : State) : Prop where
  files : FilesOk s.ftable s.proc F
  tidy : Tidy X s.proc
  ok : Ok (ctxOf P s.ftable s.proc) T L s

/-- Between calls nobody holds anything. -/
abbrev Inv (P : Prop) (s : State) : Prop := Mid P (fun _ => False) 0 0 ∅ s

variable {P : Prop} {X X' : Nat → Prop} {F F' : Nat → Int}

theorem Mid.of_ok {L' : Finset Nat} (h : Mid P X F T L s) (ht : Ok (ctxOf P s.ftable s.proc) T' L' t) :
    Mid P X F T' L' t where
  files := by
    rw [ht.ftable, ht.proc]
    exact h.files
  tidy := by
    rw [ht.proc]
    exact h.tidy
  ok := by
    rw [ht.ftable, ht.proc]
    exact ht

theorem Ok.move {proc : Nat → Proc} (h : Ok c T L s) (hdisk : P → c.disk)
    (hrefs : ∀ k, baseOf ft proc k + T'.count k = c.base k + T.count k) :
    Ok (ctxOf P ft proc) T' L { s with ftable := ft, proc := proc } := by
  have ht : Ok (ctxOf P ft proc) T' L { s with
      ftable := (ctxOf P ft proc).ftable, proc := (ctxOf P ft proc).proc
      outstanding := s.outstanding, logged := s.logged } := h.rebase hdisk hrefs
  exact ht

theorem hasCwd_of_lt (hp : p < nproc) : (ctxOf P s.ftable s.proc).HasCwd p := by
  intro k hk
  have hpos : 0 < cwdCount s.proc k := cwdCount_pos hp hk
  show 0 < baseOf s.ftable s.proc k
  unfold baseOf
  omega

section

variable (h : Mid P X F T L s)
include h

theorem Mid.setFiles (hfiles : FilesOk ft s.proc F')
    (hbase : ∀ k, baseOf ft s.proc k = baseOf s.ftable s.proc k) : Mid P X F' T L { s with ftable := ft } where
  files := hfiles
  tidy := h.tidy
  ok := h.ok.move id fun k => congrArg (· + (T.count k : Int)) (hbase k)

theorem Mid.setOfile {ofile : Ofile} (hrun : (s.proc p).state = .running ∨ X p)
    (hfiles : FilesOk s.ftable (update s.proc p { s.proc p with ofile := ofile }) F') :
    Mid P X F' T L { s with proc := update s.proc p { s.proc p with ofile := ofile } } where
  files := hfiles
  tidy := h.tidy.ofile hrun
  ok := h.ok.move id fun k => congrArg (· + (T.count k : Int)) (baseOf_proc rfl)

theorem Mid.alloc (ha : filealloc s.ftable = some (f, ft)) :
    Mid P X (F + one f) T L { s with ftable := ft } := by
  refine h.setFiles (h.files.alloc ha) fun k => ?_
  obtain ⟨hlt, h0, rfl⟩ := filealloc_eq ha
  refine baseOf_file hlt fun k => ?_
  simp [RefersTo, h0, h.files.free f h0]

theorem Mid.dup (hd : filedup s.ftable f = .ok ft) :
    Mid P X (F + one f) T L { s with ftable := ft } := by
  refine h.setFiles (h.files.dup hd) fun k => ?_
  obtain ⟨h0, rfl⟩ := filedup_eq hd
  refine baseOf_file (h.files.lt h0) fun k => ?_
  simp [RefersTo, Nat.pos_of_ne_zero h0]

theorem Mid.set (hf : (s.ftable f).ref ≠ 0) (href : ff.ref = (s.ftable f).ref)
    (hsame : ∀ k, RefersTo ff k ↔ RefersTo (s.ftable f) k) :
    Mid P X F T L { s with ftable := update s.ftable f ff } :=
  h.setFiles (h.files.set hf href) fun _ => baseOf_file (h.files.lt hf) hsame

theorem allocFile_mid {Q : Option Nat → State → Prop} {E : String → Prop}
    (hnone : Q none s)
    (hsome : ∀ f ft, filealloc s.ftable = some (f, ft) → Mid P X (F + one f) T L { s with ftable := ft } →
      Q (some f) { s with ftable := ft }) : Sat allocFile s Q E := by
  unfold allocFile
  rw [sat_bind, sat_get]
  cases ha : filealloc s.ftable with
  | none => exact hnone
  | some x => exact hsome x.1 x.2 ha (h.alloc ha)

theorem dupFile_mid :
    Sat (dupFile f) s (fun _ t => t.proc = s.proc ∧ Mid P X (F + one f) T L t) Low := by
  unfold dupFile
  rw [sat_bind, sat_get]
  cases hd : filedup s.ftable f with
  | error e =>
    unfold filedup at hd
    split at hd
    · cases hd
      exact show Low "filedup" by simp [Low, noInodes]
    · cases hd
  | ok ft => exact ⟨rfl, h.dup hd⟩

end

theorem baseOf_drop {proc : Nat → Proc} (hf : f < nfile) (hff : ff.ref = 0) :
    baseOf (update ft f ff) proc k = baseOf ft proc k - ind (RefersTo (ft f) k) := by
  have hcount : (fileCount (update ft f ff) k : Int) = _ := fileCount_update hf
  rw [ind_of_not fun h : RefersTo ff k => absurd h.1 (by omega)] at hcount
  unfold baseOf
  omega

/-- The last descriptor is gone: a reference to an inode goes to the call, to be given back. -/
theorem Mid.drop (h : Mid P X F T L s) (hd : filedrop s.ftable f = .ok (some ff, ft)) :
    ff = s.ftable f ∧ Mid P X (F - one f)
      (if ff.type = .inode ∨ ff.type = .device then ff.ip ::ₘ T else T) L { s with ftable := ft } := by
  have hfiles := h.files.drop hd
  obtain ⟨-, hcon, -⟩ | ⟨h1, hlast, rfl⟩ := filedrop_eq hd
  · cases hcon
  obtain rfl := some.inj hlast
  refine ⟨rfl, hfiles, h.tidy, h.ok.move id fun k => ?_⟩
  show baseOf (update s.ftable f _) s.proc k + _ = baseOf s.ftable s.proc k + _
  rw [baseOf_drop (h.files.lt (by omega)) rfl]
  split
  next ht =>
    have hiff : ind (RefersTo (s.ftable f) k) = if k = (s.ftable f).ip then 1 else 0 :=
      if_congr ⟨fun hr => hr.2.2.symm, fun hk => ⟨by omega, ht, hk.symm⟩⟩ rfl rfl
    rw [hiff, count_cons]
    omega
  next ht =>
    rw [ind_of_not fun hr => ht hr.2.1]
    omega

theorem fileclose_mid (h : Mid P X F T L s)
    (hL : (s.ftable f).type = .inode ∨ (s.ftable f).type = .device → L = ∅) :
    Sat (fileclose f) s (fun _ t => t.proc = s.proc ∧ Mid P X (F - one f) T L t) Low := by
  unfold fileclose
  rw [sat_bind, sat_get]
  cases hd : filedrop s.ftable f with
  | error e =>
    unfold filedrop at hd
    split at hd
    · cases hd
      exact show Low "fileclose" by simp [Low, noInodes]
    · split at hd <;> cases hd
  | ok x =>
    obtain ⟨last, ft⟩ := x
    dsimp only
    rw [sat_bind, sat_modify]
    cases last with
    | none =>
      refine ⟨rfl, h.setFiles (h.files.drop hd) fun k => ?_⟩
      obtain ⟨h1, -, rfl⟩ | ⟨-, hcon, -⟩ := filedrop_eq hd
      · refine baseOf_file (h.files.lt (by omega)) fun k => ?_
        simp [RefersTo, h1, show 0 < (s.ftable f).ref by omega]
      · cases hcon
    | some ff =>
      obtain ⟨rfl, ht⟩ := h.drop hd
      dsimp only
      unfold closeLast
      rw [sat_ite]
      refine ⟨fun hi => ?_, fun hi => ?_⟩
      · rw [if_pos hi] at ht
        obtain rfl := hL hi
        exact (putOp_ok ht.ok).imp fun _ u hu => ⟨hu.proc, ht.of_ok hu⟩
      · rw [if_neg hi] at ht
        exact ⟨rfl, ht⟩

/-! ### open -/

theorem RefersTo.opened {d : Dinode} (hff : 0 < ff.ref) : RefersTo (openedFile d ip omode ff) k ↔ k = ip := by
  have htype : (openedFile d ip omode ff).type = .inode ∨ (openedFile d ip omode ff).type = .device := by
    unfold openedFile
    dsimp only
    split
    · exact .inr rfl
    · exact .inl rfl
  exact ⟨fun h => h.2.2.symm, fun h => ⟨hff, htype, h.symm⟩⟩

theorem Mid.opened (d : Dinode) (omode : Nat) (h : Mid P X F (ip ::ₘ T) L s) (href : (s.ftable f).ref ≠ 0)
    (htype : (s.ftable f).type = .none) :
    Mid P X F T L { s with ftable := update s.ftable f (openedFile d ip omode (s.ftable f)) } where
  files := h.files.set href rfl
  tidy := h.tidy
  ok := h.ok.move id fun k => by
    have hcount : (fileCount (update s.ftable f (openedFile d ip omode (s.ftable f))) k : Int) = _ :=
      fileCount_update (h.files.lt href)
    have hnew : ind (RefersTo (openedFile d ip omode (s.ftable f)) k) = if k = ip then 1 else 0 :=
      if_congr (RefersTo.opened (Nat.pos_of_ne_zero href)) rfl rfl
    have hold : ind (RefersTo (s.ftable f) k) = 0 := ind_of_not fun hr => by
      rw [RefersTo, htype] at hr
      rcases hr.2.1 with hr | hr <;> cases hr
    show baseOf (update s.ftable f _) s.proc k + _ = baseOf s.ftable s.proc k + _
    rw [count_cons]
    unfold baseOf
    omega

theorem truncOpened_ok (h : Ok c T L s) (hip : ip ∈ L) :
    Sat (truncOpened ip omode) s (fun _ t => Ok c T L t) Low := by
  unfold truncOpened
  rw [sat_bind, sat_get, sat_ite]
  exact ⟨fun _ => itrunc_ok h hip, fun _ => h⟩

theorem openFile_mid (h : Mid P X F (ip ::ₘ T) {ip} s) (hp : p < nproc) (hrun : (s.proc p).state = .running) :
    Sat (openFile p ip omode) s (fun _ t => Mid P X F T ∅ t) Low := by
  unfold openFile
  rw [sat_bind]
  refine allocFile_mid h ((bail_ok h.ok).imp fun _ t ht => h.of_ok ht) fun f ft ha ht => ?_
  obtain ⟨hlt, h0, rfl⟩ := filealloc_eq ha
  have hftype := h.files.free f h0
  dsimp only
  rw [sat_bind, sat_get]
  dsimp only
  cases hfd : fdalloc (s.proc p).ofile f with
  | none =>
    dsimp only
    refine (fileclose_mid ht fun hi => ?_).bind fun _ u ⟨_, hu⟩ => ?_
    · simp [hftype] at hi
    · rw [add_sub_cancel_right] at hu
      exact (bail_ok hu.ok).imp fun _ w hw => hu.of_ok hw
  | some x =>
    obtain ⟨fd, ofile⟩ := x
    obtain ⟨hfdlt, hnone, rfl⟩ := fdalloc_eq hfd
    have hplace := ht.setOfile (.inl hrun) (ht.files.place (f := f) hp hfdlt hnone)
    rw [add_sub_cancel_right] at hplace
    have hopen := hplace.opened (f := f) (s.itable ip).d omode (by simp) (by simpa using hftype)
    dsimp only
    unfold Fs.setOfile setProc setFile
    rw [sat_bind, sat_modify, sat_bind, sat_get, sat_bind, sat_modify]
    refine (truncOpened_ok hopen.ok (Finset.mem_singleton_self ip)).bind fun _ u hu => ?_
    refine (iunlock_one hu).bind fun _ w hw => ?_
    exact (endOp_ret hw).imp fun _ x hx => hopen.of_ok hx

theorem sysOpen_mid (h : Mid P X F T ∅ s) (hp : p < nproc) (hrun : (s.proc p).state = .running) :
    Sat (sysOpen p path omode) s (fun _ t => Mid P X F T ∅ t) (Full (ctxOf P s.ftable s.proc) (T.card + 2)) := by
  unfold sysOpen
  cases path with
  | none => exact h
  | some path =>
    dsimp only
    refine ((beginOp_ok h.ok).err Low.full).bind fun _ t ht => ?_
    refine (openInode_ok ht (hasCwd_of_lt hp)).bind fun r u hu => ?_
    cases r with
    | none => exact (endOp_ret hu).mono (fun _ w hw => h.of_ok hw) fun _ he => he.full
    | some ip =>
      dsimp only
      rw [sat_bind, sat_get, sat_ite]
      refine ⟨fun _ => (bail_ok hu).mono (fun _ w hw => h.of_ok hw) fun _ he => he.full, fun _ => ?_⟩
      have hrun' : (u.proc p).state = .running := by
        rw [hu.proc]
        exact hrun
      exact (openFile_mid (h.of_ok hu) hp hrun').err Low.full

/-! ### Descriptors -/

theorem sysDup_mid (h : Mid P X F T L s) (hp : p < nproc) (hrun : (s.proc p).state = .running) :
    Sat (sysDup p fd) s (fun _ t => Mid P X F T L t) Low := by
  unfold sysDup
  rw [sat_bind, sat_get]
  cases argfd (s.proc p).ofile fd with
  | none => exact h
  | some x =>
    obtain ⟨n, f⟩ := x
    dsimp only
    rw [sat_bind, sat_get]
    cases hfd : fdalloc (s.proc p).ofile f with
    | none => exact h
    | some y =>
      obtain ⟨m, ofile⟩ := y
      obtain ⟨hlt, hnone, rfl⟩ := fdalloc_eq hfd
      have hplace := h.setOfile (.inl hrun) (h.files.place (f := f) hp hlt hnone)
      dsimp only
      unfold Fs.setOfile setProc
      rw [sat_bind, sat_modify]
      refine (dupFile_mid hplace).bind fun _ t ht => ?_
      have hmid := ht.2
      rwa [sub_add_cancel] at hmid

theorem sysClose_mid (h : Mid P X F T ∅ s) (hp : p < nproc) (hrun : (s.proc p).state = .running) :
    Sat (sysClose p fd) s (fun _ t => Mid P X F T ∅ t) Low := by
  unfold sysClose
  rw [sat_bind, sat_get]
  cases hfd : argfd (s.proc p).ofile fd with
  | none => exact h
  | some x =>
    obtain ⟨n, f⟩ := x
    obtain ⟨hlt, hsome⟩ := argfd_eq hfd
    have hclear := h.setOfile (.inl hrun) (h.files.unplace hp hlt hsome)
    dsimp only
    unfold setProc
    rw [sat_bind, sat_modify]
    refine (fileclose_mid hclear fun _ => rfl).bind fun _ t ht => ?_
    have hmid := ht.2
    rwa [add_sub_cancel_right] at hmid

theorem Mid.argfd_ref {n : Nat} (h : Mid P X 0 T L s) (hp : p < nproc)
    (hfd : argfd (s.proc p).ofile fd = some (n, f)) : (s.ftable f).ref ≠ 0 := by
  obtain ⟨hlt, hsome⟩ := argfd_eq hfd
  have hpos := slotCount_pos hp hlt hsome
  have href := h.files.refs f
  rw [Pi.zero_apply] at href
  omega

theorem Mid.held (h : Mid P X F T L s) (href : (s.ftable f).ref ≠ 0)
    (htype : (s.ftable f).type = .inode ∨ (s.ftable f).type = .device) :
    Held (ctxOf P s.ftable s.proc) T (s.ftable f).ip := by
  have hpos : 0 < fileCount s.ftable (s.ftable f).ip :=
    fileCount_pos (h.files.lt href) ⟨Nat.pos_of_ne_zero href, htype, rfl⟩
  refine .inr ?_
  show 0 < baseOf s.ftable s.proc _
  unfold baseOf
  omega

theorem filestat_mid (h : Mid P X F T ∅ s) (href : (s.ftable f).ref ≠ 0) :
    Sat (filestat f stored) s (fun _ t => Mid P X F T ∅ t) Low := by
  unfold filestat
  rw [sat_bind, sat_get]
  dsimp only
  rw [sat_ite]
  refine ⟨fun htype => ?_, fun _ => h⟩
  refine (ilock_one h.ok (h.held href htype)).bind fun _ t ht => ?_
  rw [sat_bind]
  exact (iunlock_one ht).imp fun _ u hu => h.of_ok hu

theorem sysFstat_mid (h : Mid P X 0 T ∅ s) (hp : p < nproc) :
    Sat (sysFstat p fd stored) s (fun _ t => Mid P X 0 T ∅ t) Low := by
  unfold sysFstat
  rw [sat_bind, sat_get]
  cases hfd : argfd (s.proc p).ofile fd with
  | none => exact h
  | some x => exact filestat_mid h (h.argfd_ref hp hfd)

/-! ### read and write -/

/-- Only the offset of the open file may differ. -/
def SameFile (f : Nat) (s t : State) : Prop := ∃ off, t.ftable f = { s.ftable f with off := off }

theorem setFile_mid {g : File → Nat} (h : Mid P X F T L s) (href : (s.ftable f).ref ≠ 0) :
    Sat (setFile f fun ff => { ff with off := g ff }) s
      (fun _ t => SameFile f s t ∧ t.proc = s.proc ∧ Mid P X F T L t) Low := by
  unfold setFile
  rw [sat_modify]
  refine ⟨⟨g (s.ftable f), update_self ..⟩, rfl, h.set href rfl fun k => Iff.rfl⟩

theorem fileread_mid {dst : Nat → Bool} (h : Mid P X F T ∅ s) (href : (s.ftable f).ref ≠ 0) :
    Sat (fileread f dst n other) s (fun _ t => Mid P X F T ∅ t) Low := by
  unfold fileread
  rw [sat_bind, sat_get]
  dsimp only
  rw [sat_ite]
  refine ⟨fun _ => h, fun _ => ?_⟩
  cases htype : (s.ftable f).type with
  | none => exact show Low "fileread" by simp [Low, noInodes]
  | pipe => exact h
  | device => exact h
  | inode =>
    dsimp only
    refine (ilock_one h.ok (h.held href (.inl htype))).bind fun _ t ht => ?_
    refine (readi_ok ht (Finset.mem_singleton_self _)).bind fun r u hu => ?_
    obtain ⟨r, bs⟩ := r
    have href' : (u.ftable f).ref ≠ 0 := by
      rw [hu.ftable]
      exact href
    dsimp only
    refine (setFile_mid (h.of_ok hu) href').bind fun _ w hset => ?_
    obtain ⟨-, -, hw⟩ := hset
    rw [sat_bind]
    exact (iunlock_one hw.ok).imp fun _ x hx => hw.of_ok hx

theorem sysRead_mid {dst : Nat → Bool} (h : Mid P X 0 T ∅ s) (hp : p < nproc) :
    Sat (sysRead p fd dst n other) s (fun _ t => Mid P X 0 T ∅ t) Low := by
  unfold sysRead
  rw [sat_bind, sat_get]
  cases hfd : argfd (s.proc p).ofile fd with
  | none => exact h
  | some x =>
    dsimp only
    rw [sat_bind]
    exact (fileread_mid h (h.argfd_ref hp hfd)).imp fun _ _ ht => ht

theorem writeChunk_mid {src : Nat → Option UInt8} {n : Nat} (h : Mid P X F T ∅ s) (href : (s.ftable f).ref ≠ 0)
    (htype : (s.ftable f).type = .inode) :
    Sat (writeChunk f (s.ftable f).ip src n) s (fun _ t => SameFile f s t ∧ Mid P X F T ∅ t) Low := by
  unfold writeChunk
  refine (beginOp_ok h.ok).bind fun _ t ht => ?_
  refine (ilock_one ht (h.held href (.inl htype))).bind fun _ u hu => ?_
  rw [sat_bind, sat_get]
  refine (writei_ok hu (Finset.mem_singleton_self _)).bind fun r w hw => ?_
  have hfile : w.ftable f = s.ftable f := congrFun hw.ftable f
  have href' : (w.ftable f).ref ≠ 0 := by rwa [hfile]
  refine (setFile_mid (h.of_ok hw) href').bind fun _ x ⟨hsame, _, hx⟩ => ?_
  refine (iunlock_one hx.ok).bind fun _ y hy => ?_
  refine (endOp_ret hy).imp fun _ z hz => ⟨?_, hx.of_ok hz⟩
  obtain ⟨off, hoff⟩ := hsame
  refine ⟨off, ?_⟩
  rw [congrFun hz.ftable f, ← hfile]
  exact hoff

theorem filewriteLoop_mid {src : Nat → Option UInt8} {ip n : Nat} : ∀ turns i s, Mid P X F T ∅ s →
    (s.ftable f).ref ≠ 0 → (s.ftable f).type = .inode → (s.ftable f).ip = ip →
    Sat (filewriteLoop f ip src n turns i) s (fun _ t => Mid P X F T ∅ t) Low
  | 0, _, _, h, _, _, _ => h
  | turns + 1, i, s, h, href, htype, hip => by
    unfold filewriteLoop
    rw [sat_ite]
    refine ⟨fun _ => ?_, fun _ => h⟩
    dsimp only
    rw [sat_bind, ← hip]
    refine (writeChunk_mid h href htype).imp fun r t ⟨hsame, ht⟩ => ?_
    rw [sat_ite]
    refine ⟨fun _ => ht, fun _ => ?_⟩
    obtain ⟨off, hoff⟩ := hsame
    exact filewriteLoop_mid turns _ t ht (by rwa [hoff]) (by rwa [hoff]) (by rw [hoff])

theorem sysWrite_mid {src : Nat → Option UInt8} (h : Mid P X 0 T ∅ s) (hp : p < nproc) :
    Sat (sysWrite p fd src n other) s (fun _ t => Mid P X 0 T ∅ t) Low := by
  unfold sysWrite
  rw [sat_bind, sat_get]
  cases hfd : argfd (s.proc p).ofile fd with
  | none => exact h
  | some x =>
    have href := h.argfd_ref hp hfd
    dsimp only
    unfold filewrite
    rw [sat_bind, sat_get]
    dsimp only
    rw [sat_ite]
    refine ⟨fun _ => h, fun _ => ?_⟩
    cases htype : (s.ftable x.2).type with
    | none => exact show Low "filewrite" by simp [Low, noInodes]
    | pipe => exact h
    | device => exact h
    | inode =>
      dsimp only
      rw [sat_bind]
      exact (filewriteLoop_mid _ _ s h href htype rfl).imp fun _ _ ht => ht

/-! ### Pipes -/

theorem pipe_not_refers (h : ff.type = .none ∨ ff.type = .pipe) : ¬RefersTo ff k := by
  intro hr
  rcases h with h | h
  · rw [RefersTo, h] at hr
    simp at hr
  · rw [RefersTo, h] at hr
    simp at hr

theorem Mid.pipe {r w : Bool} (h : Mid P X F T L s) (href : (s.ftable f).ref ≠ 0)
    (htype : (s.ftable f).type = .none) :
    Mid P X F T L { s with
      ftable := update s.ftable f { s.ftable f with type := .pipe, readable := r, writable := w } } :=
  h.set href rfl fun _ => iff_of_false (pipe_not_refers (.inr rfl)) (pipe_not_refers (.inl htype))

theorem closeBoth_mid {rf wf : Nat} (h : Mid P X (F + one rf + one wf) T ∅ s) :
    Sat (do fileclose rf; fileclose wf) s (fun _ t => t.proc = s.proc ∧ Mid P X F T ∅ t) Low := by
  refine (fileclose_mid h fun _ => rfl).bind fun _ t ⟨htp, ht⟩ => ?_
  refine (fileclose_mid ht fun _ => rfl).imp fun _ u ⟨hup, hu⟩ => ⟨hup.trans htp, ?_⟩
  have heq : F + one rf + one wf - one rf - one wf = F := by abel
  rwa [heq] at hu

theorem pipealloc_mid (h : Mid P X F T ∅ s) : Sat (pipealloc mem) s (fun r t => t.proc = s.proc ∧ match r with
      | none => Mid P X F T ∅ t
      | some (rf, wf) => Mid P X (F + one rf + one wf) T ∅ t) Low := by
  unfold pipealloc
  rw [sat_bind]
  refine allocFile_mid h ⟨rfl, h⟩ fun f0 ft ha h0 => ?_
  dsimp only
  rw [sat_bind]
  refine allocFile_mid h0 ?_ fun f1 ft' hb h1 => ?_
  · dsimp only
    refine (fileclose_mid h0 fun _ => rfl).bind fun _ t ⟨htp, ht⟩ => ⟨htp, ?_⟩
    rwa [add_sub_cancel_right] at ht
  · obtain ⟨-, hz0, rfl⟩ := filealloc_eq ha
    obtain ⟨-, hz1, rfl⟩ := filealloc_eq hb
    have htype0 := h.files.free f0 hz0
    have htype1 := h0.files.free f1 hz1
    have hne : f1 ≠ f0 := by
      rintro rfl
      simp at hz1
    dsimp only
    rw [sat_ite]
    refine ⟨fun _ => ?_, fun _ => ?_⟩
    · have ha := h1.pipe (f := f0) (r := true) (w := false) (by simp [hne.symm]) (by simpa [hne.symm] using htype0)
      have hb := ha.pipe (f := f1) (r := false) (w := true) (by simp [hne]) (by simpa [hne] using htype1)
      unfold setFile
      rw [sat_bind, sat_modify, sat_bind, sat_modify]
      exact ⟨rfl, hb⟩
    · have hclose := closeBoth_mid h1
      rw [sat_bind] at hclose
      rw [sat_bind]
      refine hclose.imp fun _ t ht => ?_
      rw [sat_bind]
      exact ht.imp fun _ _ hu => hu

theorem sysPipe_mid (h : Mid P X F T ∅ s) (hp : p < nproc)
    (hrun : (s.proc p).state = .running) : Sat (sysPipe p mem stored) s (fun _ t => Mid P X F T ∅ t) Low := by
  unfold sysPipe
  refine (pipealloc_mid h).bind fun r t ⟨htp, ht⟩ => ?_
  cases r with
  | none => exact ht
  | some x =>
    obtain ⟨rf, wf⟩ := x
    have hrun' : (t.proc p).state = .running := by rwa [htp]
    -- the failures close both ends
    have hfail : ∀ u, Mid P X (F + one rf + one wf) T ∅ u →
        Sat (closeBoth rf wf) u (fun _ t => Mid P X F T ∅ t) Low := by
      intro u hu
      have hclose := closeBoth_mid hu
      rw [sat_bind] at hclose
      unfold closeBoth
      rw [sat_bind]
      refine hclose.imp fun _ w hw => ?_
      rw [sat_bind]
      exact hw.imp fun _ _ hx => hx.2
    dsimp only
    rw [sat_bind, sat_get]
    cases hfd0 : fdalloc (t.proc p).ofile rf with
    | none => exact hfail t ht
    | some y =>
      obtain ⟨fd0, ofile₁⟩ := y
      obtain ⟨hlt0, hnone0, rfl⟩ := fdalloc_eq hfd0
      dsimp only
      cases hfd1 : fdalloc (update (t.proc p).ofile fd0 (some rf)) wf with
      | none => exact hfail t ht
      | some z =>
        obtain ⟨fd1, ofile₂⟩ := z
        obtain ⟨hlt1, hnone1, rfl⟩ := fdalloc_eq hfd1
        have hne : fd1 ≠ fd0 := by
          rintro rfl
          simp at hnone1
        unfold Fs.setOfile setProc
        dsimp only
        rw [sat_ite]
        refine ⟨fun _ => ?_, fun _ => ?_⟩
        · rw [sat_bind, sat_modify]
          refine ht.setOfile (.inl hrun') (ht.files.ofile hp fun g => ?_)
          dsimp only
          rw [fdCount_update hlt1, fdCount_update hlt0, hnone0, hnone1, ind_none, ind_some, ind_some]
          simp only [Pi.add_apply]
          omega
        · rw [sat_bind, sat_modify]
          refine hfail _ (ht.setOfile (.inl hrun') (ht.files.ofile hp fun g => ?_))
          have hback : update (update (update (update (t.proc p).ofile
              fd0 (some rf)) fd1 (some wf)) fd0 none) fd1 none = (t.proc p).ofile := by
            funext fd
            by_cases h1 : fd = fd1
            · rw [h1, update_self, ← hnone1, update_of_ne hne]
            · rw [update_of_ne h1]
              by_cases h0 : fd = fd0
              · rw [h0, update_self, hnone0]
              · rw [update_of_ne h0, update_of_ne h1, update_of_ne h0]
          dsimp only
          rw [hback]

/-! ### Directories and processes -/

/-- The references without one to the entry. -/
def Ctx.without (c : Ctx) (k : Nat) (hk : 0 < c.base k) : Ctx :=
  { c with
    base := fun j => c.base j - if j = k then 1 else 0
    nonneg := fun j => by
      have hj := c.nonneg j
      split
      next heq =>
        rw [heq]
        omega
      next => omega }

theorem Ok.borrow (h : Ok c T L s) (hk : 0 < c.base k) : Ok (c.without k hk) (k ::ₘ T) L s := by
  have ht : Ok (c.without k hk) (k ::ₘ T) L { s with
      ftable := c.ftable, proc := c.proc, outstanding := s.outstanding, logged := s.logged } := by
    refine h.rebase id fun j => ?_
    rw [count_cons]
    show c.base j - _ + _ = _
    omega
  rwa [← h.ftable, ← h.proc] at ht

theorem Mid.setProc {T₀ : Multiset Nat} {L₀ : Finset Nat} {q : Proc} (h : Mid P X F T₀ L₀ s)
    (ht : Ok c T' L t) (hft : t.ftable = s.ftable) (hdisk : P → c.disk) (hq : q.ofile = (s.proc p).ofile)
    (htidy : Tidy X' (update s.proc p q))
    (hrefs : ∀ j, baseOf s.ftable (update s.proc p q) j + T.count j = c.base j + T'.count j) :
    Mid P X' F T L { t with proc := update s.proc p q } := by
  refine ⟨?_, htidy, ?_⟩
  · show FilesOk t.ftable _ F
    rw [hft]
    exact h.files.keep hq
  · rw [← hft] at hrefs
    exact ht.move hdisk hrefs

theorem cwd_sat {Q : Nat → State → Prop} (h : ∀ k, (s.proc p).cwd = some k → Q k s) : Sat (cwd p) s Q Low := by
  unfold cwd
  rw [sat_bind, sat_get]
  cases hk : (s.proc p).cwd with
  | none => exact show Low "null pointer" by simp [Low, noInodes]
  | some k => exact h k hk

theorem changeDir_mid (h : Mid P X F (ip ::ₘ T) ∅ s) (hp : p < nproc) (hrun : (s.proc p).state = .running) :
    Sat (changeDir p ip) s (fun _ t => Mid P X F T ∅ t) Low := by
  unfold changeDir
  refine (ilock_one h.ok (.inl (mem_cons_self ..))).bind fun _ t ht => ?_
  rw [sat_bind, sat_get, sat_ite]
  refine ⟨fun _ => (bail_ok ht).imp fun _ u hu => h.of_ok hu, fun _ => ?_⟩
  refine (iunlock_one ht).bind fun _ u hu => ?_
  rw [sat_bind]
  refine cwd_sat fun k hk => ?_
  rw [hu.proc] at hk
  have hpos := hasCwd_of_lt (P := P) hp k hk
  refine (iput_ok (hu.borrow hpos) sub_empty).bind fun _ w hw => ?_
  refine (endOp_ok hw).bind fun _ x hx => ?_
  unfold Fs.setProc
  rw [sat_bind, sat_modify, hx.proc]
  refine h.setProc hx hx.ftable id rfl (h.tidy.update (fun _ _ hX => hX) (fun _ hs => absurd hrun hs)
    fun _ => ⟨ip, rfl⟩) fun j => ?_
  have hold : ind ((s.proc p).cwd = some j) = if j = k then 1 else 0 := by
    rw [show (s.proc p).cwd = some k from hk]
    exact ind_some k j
  show baseOf s.ftable (update s.proc p { s.proc p with cwd := some ip }) j + _ =
    baseOf s.ftable s.proc j - _ + _
  rw [baseOf_update hp, hold, count_cons, ind_some]
  unfold one ind
  omega

theorem sysChdir_mid (h : Mid P X F T ∅ s) (hp : p < nproc) (hrun : (s.proc p).state = .running) :
    Sat (sysChdir p path) s (fun _ t => Mid P X F T ∅ t) (Full (ctxOf P s.ftable s.proc) (T.card + 2)) := by
  unfold sysChdir
  refine ((beginOp_ok h.ok).err Low.full).bind fun _ t ht => ?_
  cases path with
  | none => exact (endOp_ret ht).mono (fun _ u hu => h.of_ok hu) fun _ he => he.full
  | some path =>
    dsimp only
    refine ((namei_ok ht (hasCwd_of_lt hp)).err fun he => he.mono (Nat.le_succ _)).bind fun r u hu => ?_
    cases r with
    | none => exact (endOp_ret hu).mono (fun _ w hw => h.of_ok hw) fun _ he => he.full
    | some ip =>
      have hrun' : (u.proc p).state = .running := by
        rw [hu.proc]
        exact hrun
      exact (changeDir_mid (h.of_ok hu) hp hrun').err Low.full

/-! ### fork, exit and wait -/

/-- The child has the descriptors below `i`, and the other processes are as they were. -/
structure Copied (np i : Nat) (s t : State) : Prop where
  others : ∀ j, j ≠ np → t.proc j = s.proc j
  cwd : (t.proc np).cwd = (s.proc np).cwd
  free : ∀ fd, i ≤ fd → fd < nofile → (t.proc np).ofile fd = none

theorem dupFiles_mid {np : Nat} {ofile : Ofile} (h : Mid P (· = np) F T L s) (hnp : np < nproc)
    (hfree : ∀ fd, fd < nofile → (s.proc np).ofile fd = none) :
    Sat (dupFiles np ofile) s (fun _ t => Copied np nofile s t ∧ Mid P (· = np) F T L t) Low := by
  unfold dupFiles
  refine sat_forM_range (I := fun i t => Copied np i s t ∧ Mid P (· = np) F T L t)
    ⟨⟨fun _ _ => rfl, rfl, fun fd _ => hfree fd⟩, h⟩ fun i hi t ⟨hcopy, ht⟩ => ?_
  cases hf : ofile i with
  | none => exact ⟨⟨hcopy.others, hcopy.cwd, fun fd hfd => hcopy.free fd (Nat.le_of_succ_le hfd)⟩, ht⟩
  | some f =>
    dsimp only
    refine (dupFile_mid ht).bind fun _ u ⟨hup, hu⟩ => ?_
    have hplace := hu.setOfile (.inr rfl)
      (hu.files.place (f := f) hnp hi (by rw [hup]; exact hcopy.free i le_rfl hi))
    rw [add_sub_cancel_right] at hplace
    refine ⟨⟨fun j hj => ?_, ?_, fun fd hfd hlt => ?_⟩, hplace⟩
    · show update u.proc np _ j = _
      rw [update_of_ne hj, hup]
      exact hcopy.others j hj
    · show (update u.proc np _ np).cwd = _
      rw [update_self, hup]
      exact hcopy.cwd
    · show (update u.proc np _ np).ofile fd = none
      rw [update_self]
      show update (u.proc np).ofile i (some f) fd = none
      rw [update_of_ne (by omega), hup]
      exact hcopy.free fd (by omega) hlt

theorem fork_mid (h : Inv P s) (hp : p < nproc) : Sat (fork p mem) s (fun _ t => Inv P t) Low := by
  unfold fork
  rw [sat_bind, sat_get]
  cases hfind : (List.range nproc).find? fun i => (s.proc i).state = .unused with
  | none => exact h
  | some np =>
    have hnp : np < nproc := List.mem_range.mp (List.mem_of_find?_eq_some hfind)
    have hunused : (s.proc np).state = .unused := by simpa using List.find?_some hfind
    obtain ⟨hcwd, hfree⟩ := h.tidy.idle np not_false (by rw [hunused]; decide)
    have hX : Mid P (· = np) 0 0 ∅ s :=
      ⟨h.files, ⟨fun p _ => h.tidy.idle p not_false, h.tidy.home⟩, h.ok⟩
    dsimp only
    rw [sat_ite]
    refine ⟨fun _ => h, fun _ => ?_⟩
    refine (dupFiles_mid hX hnp hfree).bind fun _ t ⟨hcopy, ht⟩ => ?_
    rw [sat_bind]
    refine cwd_sat fun k hk => ?_
    have hpos : 0 < (ctxOf P t.ftable t.proc).base k := hasCwd_of_lt hp k hk
    have hadd := ht.ok.addRef (ht.ok.ref_pos (.inr hpos))
    unfold idup setInode Fs.setProc
    rw [sat_bind, sat_modify, sat_bind, sat_modify]
    refine ht.setProc hadd rfl id rfl (ht.tidy.update (fun j hj hXj => absurd hXj hj)
      (fun _ hs => absurd rfl hs) fun _ => ⟨k, rfl⟩) fun j => ?_
    have hnone : (t.proc np).cwd = none := hcopy.cwd.trans hcwd
    show baseOf t.ftable (update t.proc np { t.proc np with cwd := some k, state := .running }) j + _ =
      baseOf t.ftable t.proc j + _
    rw [baseOf_update hnp, hnone, ind_none, ind_some, count_cons]
    unfold one ind
    omega

/-- The descriptors below `i` are closed, and nothing else of the processes has changed. -/
structure Closed (p i : Nat) (s t : State) : Prop where
  state : (t.proc p).state = (s.proc p).state
  closed : ∀ fd, fd < i → (t.proc p).ofile fd = none

theorem closeFiles_mid (h : Mid P X F T ∅ s) (hp : p < nproc) (hrun : (s.proc p).state = .running) :
    Sat (closeFiles p) s (fun _ t => Closed p nofile s t ∧ Mid P X F T ∅ t) Low := by
  unfold closeFiles
  refine sat_forM_range (I := fun i t => Closed p i s t ∧ Mid P X F T ∅ t) ⟨⟨rfl, nofun⟩, h⟩
    fun i hi t ⟨hclosed, ht⟩ => ?_
  rw [sat_bind, sat_get]
  cases hf : (t.proc p).ofile i with
  | none =>
    refine ⟨⟨hclosed.state, fun fd hfd => ?_⟩, ht⟩
    obtain hlt | rfl := Nat.lt_succ_iff_lt_or_eq.mp hfd
    · exact hclosed.closed fd hlt
    · exact hf
  | some f =>
    dsimp only
    refine (fileclose_mid ht fun _ => rfl).bind fun _ u ⟨hup, hu⟩ => ?_
    have hrun' : (u.proc p).state = .running := by rw [hup, hclosed.state, hrun]
    have hclear := hu.setOfile (.inl hrun') (hu.files.unplace hp hi (by rw [hup]; exact hf))
    rw [sub_add_cancel] at hclear
    refine ⟨⟨?_, fun fd hfd => ?_⟩, hclear⟩
    · show (update u.proc p _ p).state = _
      rw [update_self, hup]
      exact hclosed.state
    · show (update u.proc p _ p).ofile fd = none
      rw [update_self]
      show update (u.proc p).ofile i none fd = none
      obtain hlt | rfl := Nat.lt_succ_iff_lt_or_eq.mp hfd
      · rw [update_of_ne hlt.ne, hup]
        exact hclosed.closed fd hlt
      · exact update_self ..

theorem exit_mid (h : Mid P X F T ∅ s) (hp : p < nproc) (hrun : (s.proc p).state = .running) :
    Sat (exit p) s (fun _ t => Mid P X F T ∅ t) Low := by
  unfold exit
  rw [sat_ite]
  refine ⟨fun _ => show Low "init exiting" by simp [Low, noInodes], fun _ => ?_⟩
  refine (closeFiles_mid h hp hrun).bind fun _ t hmid => ?_
  obtain ⟨hclosed, ht⟩ := hmid
  rw [sat_bind]
  refine cwd_sat fun k hk => ?_
  have hpos : 0 < (ctxOf P t.ftable t.proc).base k := hasCwd_of_lt hp k hk
  refine (putOp_ok (ht.ok.borrow hpos)).bind fun _ u hu => ?_
  unfold Fs.setProc
  rw [sat_bind, sat_modify, hu.proc]
  refine ht.setProc hu hu.ftable id rfl (ht.tidy.update (fun _ _ hX => hX) (fun _ _ => ⟨rfl, hclosed.closed⟩)
    (by simp)) fun j => ?_
  have hold : ind ((t.proc p).cwd = some j) = if j = k then 1 else 0 := by
    rw [hk]
    exact ind_some k j
  show baseOf t.ftable (update t.proc p { t.proc p with cwd := none, state := .zombie }) j + _ =
    baseOf t.ftable t.proc j - _ + _
  rw [baseOf_update hp, hold, ind_none]
  omega

theorem wait_mid {child : Nat} (h : Inv P s) : Sat (wait child) s (fun _ t => Inv P t) Low := by
  unfold wait
  rw [sat_bind, sat_get, sat_ite]
  refine ⟨fun hz => ?_, fun _ => h⟩
  have hidle := h.tidy.idle child not_false (by rw [hz]; decide)
  unfold Fs.setProc
  rw [sat_bind, sat_modify]
  refine h.setProc h.ok rfl id rfl (h.tidy.update (fun _ _ hX => hX) (fun _ _ => hidle) nofun) fun j => ?_
  exact congrArg (· + (Multiset.count j 0 : Int)) (baseOf_proc rfl)

/-! ### Runs -/

/-- **Every call leaves the counts exact**, and can find the inode table full only if files and directories
leave less than three entries of it. -/
theorem syscall_mid {call : Call} (h : Inv P s) (hp : p < nproc) (hrun : (s.proc p).state = .running) :
    Sat (syscall p call) s (fun _ t => Inv P t) (Full (ctxOf P s.ftable s.proc) 2) := by
  have hcwd : (ctxOf P s.ftable s.proc).HasCwd p := hasCwd_of_lt hp
  have hlow : ∀ {x : FsM Int}, Sat x s (fun _ t => Inv P t) Low →
      Sat x s (fun _ t => Inv P t) (Full (ctxOf P s.ftable s.proc) 2) :=
    fun hx => hx.mono (fun _ _ ht => ht) fun _ he => he.full
  have hok : ∀ {x : FsM Int}, Sat x s (fun _ t => Ok (ctxOf P s.ftable s.proc) 0 ∅ t)
      (Full (ctxOf P s.ftable s.proc) 2) →
      Sat x s (fun _ t => Inv P t) (Full (ctxOf P s.ftable s.proc) 2) :=
    fun hx => hx.imp fun _ _ ht => h.of_ok ht
  cases call with
  | «open» path omode => exact sysOpen_mid h hp hrun
  | read fd dst n other => exact hlow (sysRead_mid h hp)
  | write fd src n other => exact hlow (sysWrite_mid h hp)
  | mkdir path => exact hok (makeNode_ok h.ok hcwd)
  | mknod path major minor => exact hok (makeNode_ok h.ok hcwd)
  | link old new => exact hok (sysLink_ok h.ok hcwd)
  | unlink path => exact hok (sysUnlink_ok h.ok hcwd)
  | chdir path => exact sysChdir_mid h hp hrun
  | close fd => exact hlow (sysClose_mid h hp hrun)
  | dup fd => exact hlow (sysDup_mid h hp hrun)
  | fstat fd stored => exact hlow (sysFstat_mid h hp)
  | pipe mem stored => exact hlow (sysPipe_mid h hp hrun)
  | fork mem => exact hlow (fork_mid h hp)
  | exec path parts => exact hok (exec_ok h.ok hcwd)
  | exit => exact hlow (exit_mid h hp hrun)
  | wait child => exact hlow (wait_mid h)

theorem step_eq {e : Nat × Call} (h : step s e = some t) :
    e.1 < nproc ∧ (s.proc e.1).state = .running ∧ ∃ r, syscall e.1 e.2 s = .ok (r, t) := by
  obtain ⟨⟨hp, hrun⟩, h⟩ := ite_none_right_eq_some.mp h
  cases hx : syscall e.1 e.2 s with
  | error msg =>
    rw [hx] at h
    cases h
  | ok x =>
    rw [hx] at h
    cases h
    exact ⟨hp, hrun, x.1, rfl⟩

theorem Inv.step {e : Nat × Call} (h : Inv P s) (hs : step s e = some t) : Inv P t := by
  obtain ⟨hp, hrun, r, hr⟩ := step_eq hs
  exact (syscall_mid h hp hrun).of_ok hr

theorem boot_inv {img : Image} (hd : P → Disk img.dinode (boot img)) : Inv P (boot img) := by
  have hproc : ∀ i, (boot img).proc i = if i = initproc then ⟨.running, fun _ => none, some 0⟩ else noProc :=
    fun i => by simp [boot, update_apply]
  have hofile : ∀ i, ((boot img).proc i).ofile = fun _ => none := fun i => by
    rw [hproc]
    split <;> rfl
  have hitable : ∀ k, ((boot img).itable k).ref = if k = 0 then 1 else 0 := fun k => by
    unfold boot
    dsimp only
    rw [update_apply]
    split <;> rfl
  have hlocked : ∀ k, ((boot img).itable k).locked = false := fun k => by
    unfold boot
    dsimp only
    rw [update_apply]
    split <;> rfl
  have hslots : ∀ f, slotCount (boot img).proc f = 0 := fun f => by
    unfold slotCount
    simp [hofile]
  have hbase : ∀ k, baseOf (boot img).ftable (boot img).proc k = if k = 0 then 1 else 0 := fun k => by
    have hfiles : fileCount (boot img).ftable k = 0 := by simp [fileCount, RefersTo, boot, noFile]
    have hnone : cwdCount (fun _ => noProc) k = 0 := by simp [cwdCount, noProc]
    have hcwd : (cwdCount (boot img).proc k : Int) = _ := cwdCount_update (p := initproc) (by decide)
    rw [hnone, ind_some] at hcwd
    unfold baseOf
    rw [hfiles, hcwd, show (noProc).cwd = none from rfl, ind_none]
    simp [one, ind]
  refine ⟨⟨fun f => ?_, fun _ _ => rfl, fun _ _ => rfl⟩, ⟨fun i _ hi => ?_, fun i hi => ?_⟩,
    ⟨rfl, rfl, fun k => ?_, fun k hk => ?_, fun j k hj hk _ _ => ?_, sub_empty, fun k => ?_, nofun, hd⟩⟩
  · rw [hslots]
    rfl
  · by_cases hinit : i = initproc
    · rw [hproc, if_pos hinit] at hi
      exact absurd rfl hi
    · rw [hproc, if_neg hinit]
      exact ⟨rfl, fun _ _ => rfl⟩
  · by_cases hinit : i = initproc
    · rw [hproc, if_pos hinit]
      exact ⟨0, rfl⟩
    · rw [hproc, if_neg hinit] at hi
      cases hi
  · rw [hitable]
    show _ = baseOf (boot img).ftable (boot img).proc k + _
    rw [hbase]
    simp
  · rw [hitable, if_neg]
    unfold ninode at hk
    omega
  · rw [hitable] at hj hk
    split at hj
    next h0 =>
      split at hk
      next h0' => rw [h0, h0']
      next => omega
    next => omega
  · simp [hlocked]

/-- The block of directory `i` of a chain: `.`, `..` and the name `a` of the next one. -/
def chainBlock (i : Nat) : ByteStore := fun x =>
  match x / sizeofDirent, x % sizeofDirent with
  | 0, 0 => UInt8.ofNat i
  | 0, 2 => 46
  | 1, 0 => UInt8.ofNat (max 1 (i - 1))
  | 1, 2 => 46
  | 1, 3 => 46
  | 2, 0 => UInt8.ofNat (i + 1)
  | 2, 2 => 97
  | _, _ => 0

/-- A disk with 52 directories, each in the one before. -/
def chainImage : Image where
  sb := ⟨100, 63, 60, 30, 2, 32, 36⟩
  dinode i :=
    if 1 ≤ i ∧ i ≤ 52 then
      ⟨tDir, 0, 0, if i = 52 then 1 else 2, if i = 52 then 32 else 48, fun k => if k = 0 then 37 + i else 0⟩
    else noDinode
  bitmap b := decide (b < 37 ∨ 38 ≤ b ∧ b ≤ 89)
  data b := chainBlock (b - 37)

/-- The path `a`. -/
def down : Option Path := some ⟨[97], by simp, by decide⟩

/-- **Reference counts are exact** after every sequence of calls. -/
theorem reference_counts_exact {img : Image} {tr : List (Nat × Call)}
    (h : Run step (fun _ _ => True) (boot img) tr s) :
    (∀ f, f < nfile → (s.ftable f).ref = slotCount s.proc f) ∧
    (∀ k, k < ninode → (s.itable k).ref = fileCount s.ftable k + cwdCount s.proc k) ∧
    ∀ j k, j < ninode → k < ninode → 0 < (s.itable j).ref → 0 < (s.itable k).ref →
      (s.itable j).dev = (s.itable k).dev → (s.itable j).inum = (s.itable k).inum → j = k := by
  have hinv : Inv False s := h.invariant (boot_inv False.elim) fun _ _ _ ha _ hs => ha.step hs
  refine ⟨fun f _ => ?_, fun k _ => ?_, fun j k _ _ => hinv.ok.uniq j k⟩
  · have href := hinv.files.refs f
    rw [Pi.zero_apply] at href
    omega
  · rw [hinv.ok.refs, count_zero]
    exact add_zero _

/-- A file gets two descriptors, and a new process that has them too moves on to another directory. -/
def sharing : List (Nat × Call) := [(0, .open down 0), (0, .dup 0), (0, .fork true), (1, .chdir down)]

/-- The file has four descriptors and a count of four. -/
theorem shared_file_counts : ∃ s, Run step (fun _ _ => True) (boot chainImage) sharing s ∧
    (s.ftable 0).ref = 4 ∧ slotCount s.proc 0 = 4 := by
  have hexec : (StepRun.exec step (fun _ _ => True) (boot chainImage) sharing).map (fun s => (s.ftable 0).ref) =
      some 4 := by decide +kernel
  obtain ⟨s, hs, href⟩ := map_eq_some_iff.mp hexec
  refine ⟨s, run_of_exec hs, href, ?_⟩
  rw [← (reference_counts_exact (run_of_exec hs)).1 0 (by decide)]
  exact href

/-- The number of entries of the inode table in use. -/
def State.inUse (s : State) : Nat := ((Finset.range ninode).filter fun k => 0 < (s.itable k).ref).card

/-- **A call that finds three entries of the inode table free does not run out of entries.** -/
theorem spare_inodes_suffice {img : Image} {tr : List (Nat × Call)} {call : Call}
    (h : Run step (fun s _ => s.inUse + 3 ≤ ninode) (boot img) tr s) (hp : p < nproc)
    (hrun : (s.proc p).state = .running) (huse : s.inUse + 3 ≤ ninode) : syscall p call s ≠ .error noInodes := by
  have hinv : Inv False s := h.invariant (boot_inv False.elim) fun _ _ _ ha _ hs => ha.step hs
  intro herr
  have hfull := (syscall_mid hinv hp hrun).of_error herr rfl
  have hused : (ctxOf False s.ftable s.proc).used = s.inUse := by
    unfold Ctx.used State.inUse
    congr 1
    refine Finset.filter_congr fun k _ => ?_
    have hk := hinv.ok.refs k
    have hnonneg := (ctxOf False s.ftable s.proc).nonneg k
    rw [count_zero] at hk
    omega
  omega

/-- A new process finds enough entries. -/
theorem first_chdir_has_inodes : ∃ s, Run step (fun s _ => s.inUse + 3 ≤ ninode) (boot chainImage) [(0, .fork true)] s ∧
    syscall 1 (.chdir down) s ≠ .error noInodes := by
  have hexec : (StepRun.exec step (fun s _ => s.inUse + 3 ≤ ninode) (boot chainImage) [(0, .fork true)]).map
      (fun s => decide ((s.proc 1).state = .running ∧ s.inUse + 3 ≤ ninode)) = some true := by decide +kernel
  obtain ⟨s, hs, hend⟩ := map_eq_some_iff.mp hexec
  obtain ⟨hstate, huse⟩ := of_decide_eq_true hend
  exact ⟨s, run_of_exec hs, spare_inodes_suffice (run_of_exec hs) (by decide) hstate huse⟩

def errorOf {α : Type} : Except String α → Option String
  | .ok _ => none
  | .error e => some e

theorem errorOf_eq {α : Type} {x : Except String α} {e : String} (h : errorOf x = some e) : x = .error e := by
  cases x with
  | ok a => cases h
  | error d => exact congrArg Except.error (some.inj h)

/-- Every process makes a child that goes one directory further. -/
def descend (n : Nat) : List (Nat × Call) := (List.range n).flatMap fun i => [(i, .fork true), (i + 1, .chdir down)]

/-- Fifty processes in fifty directories fill the table, and the next path to be looked up ends in a panic. -/
theorem chain_exhausts_inodes : ∃ tr s p call, Run step (fun _ _ => True) (boot chainImage) tr s ∧ p < nproc ∧
    (s.proc p).state = .running ∧ syscall p call s = .error noInodes := by
  have hrun : ((StepRun.exec step (fun _ _ => True) (boot chainImage) (descend 49)).bind fun s =>
      if (s.proc 49).state = .running then errorOf (syscall 49 (.chdir down) s) else none) = some noInodes := by
    decide +kernel
  obtain ⟨s, hs, hend⟩ := bind_eq_some_iff.mp hrun
  obtain ⟨hstate, herr⟩ := ite_none_right_eq_some.mp hend
  exact ⟨descend 49, s, 49, .chdir down, run_of_exec hs, by decide, hstate, errorOf_eq herr⟩

end Xv6Armv8.Fs
