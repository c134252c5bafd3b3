import Xv6Armv8.FsConsistent
import Xv6Armv8.KernelSurvive

/-! `fork` and `exec` over both models. The pages, the registers and the process table are in the model of the kernel,
the inodes and the log in the one of the file system; a call does its part in each. -/

namespace Xv6Armv8.ForkExec

open Spec Function Multiset Option StepRun

/-! ### Operations of the log -/

section Ops

open Fs

variable {s t : Fs.State} {p k : Nat}

/-- As many operations are open. -/
def SameOps (s t : Fs.State) : Prop := t.outstanding = s.outstanding

instance : Std.Refl SameOps := ⟨fun _ => rfl⟩

instance : IsTrans Fs.State SameOps := ⟨fun _ _ _ h h' => h'.trans h⟩

/-- The function closes as many operations as it opens. -/
abbrev Balanced {α : Type} (x : FsM α) : Prop := Keeps SameOps (fun _ => True) x

theorem balanced_of_frame {α : Type} {x : FsM α} (h : Keeps Frame Low x) : Balanced x := fun s =>
  (h s).mono (fun _ _ hf => hf.outstanding) fun _ _ => trivial

theorem setInode_balanced {f : Inode → Inode} : Balanced (setInode k f) := .modify fun _ => rfl

theorem ilock_balanced : Balanced (ilock k) := by
  refine .bind .get fun s => .ite (.throw trivial) (.bind ?_ fun _ => ?_)
  · exact .bind .get fun s => .ite (.throw trivial) setInode_balanced
  · exact .bind .get fun s => .ite .pure
      (.bind setInode_balanced fun _ => .ite (.throw trivial) .pure)

theorem iunlock_balanced : Balanced (iunlock k) :=
  .bind .get fun _ => .ite (.throw trivial) setInode_balanced

theorem iput_balanced : Balanced (iput k) := by
  refine .bind (.bind .get fun s => .ite ?_ .pure) fun _ => setInode_balanced
  refine .bind (.bind .get fun s => .ite (.throw trivial) setInode_balanced) fun _ => ?_
  refine .bind (balanced_of_frame itrunc_frame) fun _ => .bind (balanced_of_frame setFields_frame) fun _ => ?_
  exact .bind (balanced_of_frame iupdate_frame) fun _ => .bind setInode_balanced fun _ => setInode_balanced

theorem iunlockput_balanced : Balanced (iunlockput k) := .bind iunlock_balanced fun _ => iput_balanced

theorem iget_balanced {dev inum : Nat} : Balanced (iget dev inum) := by
  refine .bind .get fun s => ?_
  split
  · exact .bind setInode_balanced fun _ => .pure
  · split
    · exact .throw trivial
    · exact .bind setInode_balanced fun _ => .pure

theorem dirlookup_balanced {dp : Nat} {name : Name} : Balanced (dirlookup dp name) := by
  refine .bind .get fun s => .ite (.throw trivial) ?_
  suffices h : ∀ n off, Balanced (dirlookupLoop dp name n off) from h _ _
  intro n
  induction n with
  | zero => exact fun _ => .pure
  | succ n ih =>
    intro off
    refine .bind (.bind (balanced_of_frame readi_frame) fun r => ?_) fun de =>
      .ite (.bind .get fun _ => .bind iget_balanced fun _ => .pure) (ih _)
    exact .ite .pure (.throw trivial)

theorem namexLoop_balanced {parent : Bool} (turns : Nat) : ∀ (ip : Nat) (name : Name) (path : List UInt8),
    Balanced (namexLoop parent turns ip name path) := by
  induction turns with
  | zero => exact fun _ _ _ => .throw trivial
  | succ turns ih =>
    intro ip name path
    unfold namexLoop
    split
    · exact .ite (.bind iput_balanced fun _ => .pure) .pure
    · refine .bind ilock_balanced fun _ => .bind .get fun s => .ite
        (.bind iunlockput_balanced fun _ => .pure) (.ite
          (.bind iunlock_balanced fun _ => .pure) (.bind dirlookup_balanced fun r => ?_))
      split
      · exact .bind iunlockput_balanced fun _ => .pure
      · exact .bind iunlockput_balanced fun _ => ih _ _ _

theorem namei_balanced {path : List UInt8} : Balanced (namei p path) := by
  refine .bind (.bind (.ite iget_balanced (.bind (.bind .get fun s => ?_) fun k => ?_))
    fun ip => namexLoop_balanced _ ip [] path) fun _ => .pure
  · split
    · exact .throw trivial
    · exact .pure
  · exact .bind setInode_balanced fun _ => .pure

/-- The function closes one operation more than it opens. -/
def Closes {α : Type} (x : FsM α) : Prop :=
  ∀ s, 1 ≤ s.outstanding → Sat x s (fun _ t => t.outstanding + 1 = s.outstanding) fun _ => True

theorem closes_bind {α β : Type} {x : FsM α} {f : α → FsM β} (hx : Balanced x) (hf : ∀ a, Closes (f a)) :
    Closes (x >>= f) := fun s hs => by
  refine (hx s).bind fun a t ht => ?_
  unfold SameOps at ht
  rw [← ht]
  exact hf a t (by omega)

theorem closes_endOp {r : Int} : Closes (do endOp; return r) := fun s hs => by
  rw [sat_bind]
  unfold endOp
  rw [sat_bind, sat_get, sat_ite]
  refine ⟨fun h0 => ?_, fun h0 => ?_⟩
  · show 0 + 1 = s.outstanding
    omega
  · show s.outstanding - 1 + 1 = s.outstanding
    omega

theorem exec_balanced {path : Option Path} {parts : List (Nat × Nat)} : Balanced (Fs.exec p path parts) := by
  unfold Fs.exec
  cases path with
  | none => exact .pure
  | some path =>
    intro s
    have hclose : ∀ x : FsM Int, Closes x → Sat x { s with outstanding := s.outstanding + 1 }
        (fun _ t => t.outstanding = s.outstanding) fun _ => True :=
      fun x hx => (hx { s with outstanding := s.outstanding + 1 } (Nat.succ_pos _)).imp fun _ t ht => Nat.succ.inj ht
    dsimp only
    unfold beginOp
    rw [sat_bind, sat_bind, sat_get, sat_ite]
    refine ⟨fun _ => trivial, fun _ => hclose _ (closes_bind namei_balanced fun r => ?_)⟩
    cases r with
    | none => exact closes_endOp
    | some ip =>
      refine closes_bind ilock_balanced fun _ => closes_bind (.forM fun part => ?_) fun _ =>
        closes_bind iunlockput_balanced fun _ => closes_endOp
      exact .bind (balanced_of_frame readi_frame) fun _ => .pure

end Ops

/-! ### Free slots -/

section Idle

open Kernel Vm FileTable Exec

variable {k k' : Machine} {c i : Nat}

/-- A slot that is not in use has no pid and no parent. -/
def Blank (p : Kernel.Proc) : Prop := p.state = .unused → p.pid = 0 ∧ p.parent = none

def Idle (k : Machine) : Prop := ∀ j, Blank (k.proc j)

/-- If the free slots were blank, they are. -/
def KeepsIdle (k k' : Machine) : Prop := Idle k → Idle k'

instance : Std.Refl KeepsIdle := ⟨fun _ => id⟩

instance : IsTrans Machine KeepsIdle := ⟨fun _ _ _ h h' => h' ∘ h⟩

abbrev Stays {α : Type} (x : KM α) : Prop := Spec.Keeps KeepsIdle (fun _ => True) x

theorem vm_stays {α : Type} {x : VmM α} : Stays (vm x) := fun k => by
  unfold Sat vm
  cases x k.mem with
  | ok r => exact id
  | error e => trivial

theorem setProc_stays {f : Kernel.Proc → Kernel.Proc} (hf : ∀ p, Blank p → Blank (f p)) : Stays (Kernel.setProc i f) :=
  .modify fun k h j => by
    show Blank (update k.proc i (f (k.proc i)) j)
    by_cases hj : j = i
    · rw [hj, update_self]
      exact hf _ (h i)
    · rw [update_of_ne hj]
      exact h j

theorem deref_stays {p : Option Nat} : Stays (deref p) := by
  cases p with
  | none => exact .throw trivial
  | some a => exact .pure

theorem ifSome_stays {p : Option Nat} {f : Nat → KM Unit} (hf : ∀ a, Stays (f a)) : Stays (ifSome p f) := by
  cases p with
  | none => exact .pure
  | some a => exact hf a

theorem setOfile_stays {ofile : Ofile} : Stays (Kernel.setOfile i ofile) := setProc_stays fun _ h => h

theorem fileclose_stays {f : Nat} : Stays (Kernel.fileclose f) := by
  refine .bind .get fun k => ?_
  split
  · exact .throw trivial
  · refine .bind (.modify fun _ h => h) fun _ => ?_
    split
    · exact .ite (.bind (.modify fun _ h => h) fun _ => .bind .get fun _ =>
        .ite vm_stays .pure) .pure
    · exact .pure

theorem kfiledup_stays {f : Nat} : Stays (kfiledup f) := by
  refine .bind .get fun k => ?_
  split
  · exact .throw trivial
  · exact .modify fun _ h => h

theorem kfilealloc_stays : Stays kfilealloc := by
  refine .bind .get fun k => ?_
  split
  · exact .pure
  · exact .bind (.modify fun _ h => h) fun _ => .pure

theorem pipealloc_stays : Stays Kernel.pipealloc := by
  refine .bind kfilealloc_stays fun r => ?_
  split
  · exact .pure
  · refine .bind kfilealloc_stays fun r => ?_
    split
    · exact .bind fileclose_stays fun _ => .pure
    · refine .bind vm_stays fun r => ?_
      split
      · exact .bind fileclose_stays fun _ => .bind fileclose_stays fun _ => .pure
      · exact .bind (.modify fun _ h => h) fun _ => .bind (.modify fun _ h => h) fun _ =>
          .bind (.modify fun _ h => h) fun _ => .pure

theorem freeproc_stays : Stays (freeproc i) :=
  .bind .get fun _ => .bind (ifSome_stays fun _ => vm_stays) fun _ =>
    .bind (setProc_stays fun _ h => h) fun _ => .bind .get fun _ =>
      .bind (ifSome_stays fun _ => vm_stays) fun _ => setProc_stays fun _ _ _ => ⟨rfl, rfl⟩

theorem allocproc_stays : Stays allocproc := by
  refine .bind .get fun k => ?_
  split
  · exact .pure
  · refine .bind (setProc_stays fun _ _ => nofun) fun _ => .bind (.modify fun _ h => h) fun _ =>
      .bind vm_stays fun r => ?_
    split
    · exact .bind freeproc_stays fun _ => .pure
    · refine .bind (setProc_stays fun _ h => h) fun _ => .bind vm_stays fun _ => .bind vm_stays fun r => ?_
      split
      · exact .bind freeproc_stays fun _ => .pure
      · exact .bind (setProc_stays fun _ h => h) fun _ => .bind vm_stays fun _ => .pure

theorem fork_stays : Stays (Kernel.fork i) := by
  refine .bind allocproc_stays fun r => ?_
  split
  · exact .pure
  · refine .bind .get fun k => .bind deref_stays fun old => .bind .get fun _ =>
      .bind deref_stays fun new => .bind vm_stays fun r => .ite
        (.bind freeproc_stays fun _ => .pure) ?_
    refine .bind (setProc_stays fun _ h => h) fun _ => .bind deref_stays fun src => .bind .get
      fun _ => .bind deref_stays fun dst => .bind vm_stays fun _ => .bind vm_stays fun _ =>
        .bind (.forM fun fd => ifSome_stays fun f => .bind kfiledup_stays fun _ =>
          setProc_stays fun _ h => h) fun _ => ?_
    exact .bind .get fun _ => .bind (setProc_stays fun _ _ => nofun) fun _ => .pure

theorem reparent_stays : Stays (reparent i) := .modify fun k h j => by
  show Blank (if (k.proc j).parent = some i then { k.proc j with parent := some k.initproc } else k.proc j)
  split_ifs with hp
  · exact fun hst => absurd (hp.symm.trans (h j hst).2) nofun
  · exact h j

theorem leave_stays : Stays (leave c) := .modify fun _ h => h

theorem exit_stays {status : Int} : Stays (Kernel.exit c i status) := by
  refine .bind .get fun k => .ite (.throw trivial) (.bind (.forM fun fd => ?_) fun _ =>
    .bind reparent_stays fun _ => .bind (setProc_stays fun _ _ => nofun) fun _ => leave_stays)
  exact .bind .get fun _ => ifSome_stays fun f => .bind fileclose_stays fun _ =>
    setProc_stays fun _ h => h

theorem wait_stays {addr : Nat} : Stays (Kernel.wait i addr) := by
  refine .bind .get fun k => ?_
  have hfree : ∀ {j : Nat} {v : Int}, Stays (do freeproc j; return some v) := .bind freeproc_stays fun _ => .pure
  split
  · exact .bind deref_stays fun _ => .ite (.bind vm_stays fun _ => .ite .pure hfree) hfree
  · exact .ite .pure .pure

theorem growproc_stays {n : Int} : Stays (growproc i n) :=
  .bind .get fun _ => .bind deref_stays fun _ => .ite
    (.bind vm_stays fun _ => .ite .pure (.bind (setProc_stays fun _ h => h) fun _ => .pure))
    (.ite (.bind vm_stays fun _ => .bind (setProc_stays fun _ h => h) fun _ => .pure) .pure)

theorem kill_stays {pid : Int} : Stays (Kernel.kill pid) := by
  refine .bind .get fun k => ?_
  split
  · exact .pure
  · refine .bind (setProc_stays fun p h hst => h ?_) fun _ => .pure
    dsimp only at hst
    split_ifs at hst
    exact hst

theorem uvmswitch_stays : Stays (uvmswitch c i) := by
  refine .bind .get fun k => ?_
  split
  · exact .throw trivial
  · exact .modify fun _ h => h

theorem exec_stays {path : List UInt8} {argv : List (List UInt8)} {file : Option Content} :
    Stays (Kernel.exec c i path argv file) := by
  unfold Kernel.exec
  split
  · exact .pure
  · refine .bind vm_stays fun r => ?_
    split
    · exact .pure
    · exact .bind .get fun _ => .bind deref_stays fun _ => .bind deref_stays fun _ =>
        .bind vm_stays fun _ => .bind (setProc_stays fun _ h => h) fun _ => .bind vm_stays fun _ =>
          .bind vm_stays fun _ => .bind uvmswitch_stays fun _ => .bind vm_stays fun _ => .pure

theorem fetchstr_stays {addr max : Nat} : Stays (fetchstr i addr max) :=
  .bind .get fun _ => .bind deref_stays fun _ => vm_stays

theorem fetchArgs_stays {uargv : Nat} (n : Nat) : ∀ j, Stays (fetchArgs i uargv n j) := by
  induction n with
  | zero => exact fun _ => .pure
  | succ n ih =>
    intro j
    refine .bind (.bind .get fun _ => .bind deref_stays fun _ => .ite .pure
      (.bind vm_stays fun _ => .pure)) fun r => ?_
    split
    · exact .pure
    · refine .ite .pure (.bind vm_stays fun r => ?_)
      split
      · exact .pure
      · refine .bind fetchstr_stays fun r => ?_
        split
        · exact .pure
        · exact .bind vm_stays fun _ => .bind (ih _) fun _ => .pure

theorem sysExec_stays {upath uargv : Nat} {file : Option Content} : Stays (sysExec c i upath uargv file) := by
  have hfree : ∀ {pgs : List Nat} {r : Int}, Stays (do freeArgs pgs; return r) :=
    .bind (.forM fun _ => vm_stays) fun _ => .pure
  refine .bind fetchstr_stays fun r => ?_
  split
  · exact .pure
  · refine .bind (fetchArgs_stays _ _) fun a => ?_
    split
    split
    · exact hfree
    · exact .bind exec_stays fun _ => hfree

theorem sysPipe_stays {fdarray : Nat} : Stays (Kernel.sysPipe i fdarray) := by
  have hclose : ∀ {rf wf : Nat}, Stays (do Kernel.fileclose rf; Kernel.fileclose wf; return (-1 : Int)) :=
    .bind fileclose_stays fun _ => .bind fileclose_stays fun _ => .pure
  refine .bind pipealloc_stays fun r => ?_
  split
  · exact .pure
  · refine .bind .get fun _ => ?_
    split
    · exact hclose
    · refine .bind setOfile_stays fun _ => .bind .get fun _ => ?_
      split
      · exact .bind setOfile_stays fun _ => hclose
      · refine .bind setOfile_stays fun _ => .bind .get fun _ => .bind deref_stays fun _ =>
          .bind vm_stays fun _ => .ite (.bind setOfile_stays fun _ => hclose) ?_
        exact .bind vm_stays fun _ => .ite (.bind setOfile_stays fun _ => hclose) .pure

theorem sysClose_stays {fd : Int} : Stays (Kernel.sysClose i fd) := by
  refine .bind .get fun _ => ?_
  split
  · exact .pure
  · exact .bind (setProc_stays fun _ h => h) fun _ => .bind fileclose_stays fun _ => .pure

theorem sysDup_stays {fd : Int} : Stays (Kernel.sysDup i fd) := by
  refine .bind .get fun _ => ?_
  split
  · exact .pure
  · refine .bind .get fun _ => ?_
    split
    · exact .pure
    · exact .bind setOfile_stays fun _ => .bind kfiledup_stays fun _ => .pure

theorem syscall_stays {sys : Syscall} : Stays (Kernel.syscall c i sys) := by
  refine .bind (fun k => ?_) fun r => ?_
  · cases sys with
    | fork => exact sat_map.mpr (fork_stays k)
    | exec path argv file => exact sat_map.mpr (sysExec_stays k)
    | sbrk n =>
      exact sat_map.mpr ((.bind .get fun _ => .bind growproc_stays fun _ =>
        .ite .pure .pure : Stays (sysSbrk i (argint n))) k)
    | pipe fdarray => exact sat_map.mpr (sysPipe_stays k)
    | close fd => exact sat_map.mpr (sysClose_stays k)
    | dup fd => exact sat_map.mpr (sysDup_stays k)
    | exit status => exact sat_map.mpr (exit_stays k)
    | wait addr => exact sat_map.mpr (wait_stays k)
    | kill pid => exact sat_map.mpr (kill_stays k)
  · split
    · exact .bind .get fun _ => .bind deref_stays fun _ => .bind vm_stays fun _ => .pure
    · exact .pure

theorem boot_stays {initcode : List UInt8} : Stays (Kernel.boot initcode) := by
  refine .bind vm_stays fun _ => .bind (.bind vm_stays fun _ => .bind vm_stays fun _ =>
    .bind vm_stays fun _ => ?_) fun _ => .bind allocproc_stays fun r => ?_
  · split
    · exact .bind vm_stays fun _ => .bind vm_stays fun _ => .bind vm_stays fun _ =>
        .modify fun _ h => h
    · exact .throw trivial
  · split
    · exact .throw trivial
    · exact .bind (.modify fun _ h => h) fun _ => .bind .get fun _ => .bind deref_stays fun _ =>
        .bind vm_stays fun _ => .bind .get fun _ => .bind deref_stays fun _ =>
          .bind vm_stays fun _ => .bind vm_stays fun _ => setProc_stays fun _ _ => nofun

theorem Idle.step {e : Event} (h : Idle k) (hstep : Kernel.step k e = some k') : Idle k' := by
  cases e with
  | schedule c i =>
    have hd : Stays (dispatch c i) := .bind (setProc_stays fun _ _ => nofun) fun _ =>
      .bind (.modify fun _ h => h) fun _ => uvmswitch_stays
    change (if _ then _ else _) = some k' at hstep
    split_ifs at hstep
    split at hstep
    · next hx =>
        cases hstep
        exact (hd k).of_ok hx h
    · cases hstep
  | yield c =>
    obtain ⟨i, -, hstep⟩ := bind_eq_some_iff.mp hstep
    have hy : Stays (yield c i) := .bind (setProc_stays fun _ _ => nofun) fun _ => leave_stays
    split at hstep
    · next hx =>
        cases hstep
        exact (hy k).of_ok hx h
    · cases hstep
  | call c sys =>
    obtain ⟨i, -, hstep⟩ := bind_eq_some_iff.mp hstep
    split at hstep
    · cases hstep
    · next hx =>
        cases hstep
        exact (syscall_stays k).of_ok hx h
    · cases hstep
  | access c va =>
    obtain ⟨i, -, hstep⟩ := bind_eq_some_iff.mp hstep
    cases hstep
    exact h

end Idle

/-! ### fork -/

section Fork

open Fs FileTable

variable {s : Fs.State} {ft : Ftable} {ofile : Ofile} {p np n f : Nat}

/-- The files with a reference more for each of the first `n` descriptors. -/
def raised (ft : Ftable) (ofile : Ofile) (n : Nat) : Ftable := fun f =>
  { ft f with ref := (ft f).ref + (List.range n).countP fun fd => ofile fd = some f }

theorem raised_none (h : ofile n = none) : raised ft ofile (n + 1) = raised ft ofile n := by
  funext g
  unfold raised
  rw [List.range_succ, List.countP_append, List.countP_singleton, h]
  rfl

theorem raised_some (h : ofile n = some f) : raised ft ofile (n + 1) =
    update (raised ft ofile n) f { raised ft ofile n f with ref := (raised ft ofile n f).ref + 1 } := by
  funext g
  unfold raised
  rw [List.range_succ, List.countP_append, List.countP_singleton, h]
  by_cases hg : g = f
  · rw [hg, update_self, if_pos (decide_eq_true rfl), add_assoc]
  · rw [update_of_ne hg, if_neg fun h => hg (some.inj (of_decide_eq_true h)).symm, add_zero]

/-- The loop over the descriptors makes the child's those of the parent and counts each. -/
theorem dupFiles_raises (hfree : ∀ fd, fd < nofile → (s.proc np).ofile fd = none) :
    Sat (Fs.dupFiles np ofile) s (fun _ t => ∃ o : Ofile, (∀ fd, fd < nofile → o fd = ofile fd) ∧
      t = { s with ftable := raised s.ftable ofile nofile
                   proc := update s.proc np { s.proc np with ofile := o } }) fun _ => True := by
  unfold Fs.dupFiles
  refine (sat_forM_range (I := fun i t => ∃ o : Ofile, ((∀ fd, fd < i → o fd = ofile fd) ∧
    ∀ fd, i ≤ fd → fd < nofile → o fd = none) ∧ t = { s with
      ftable := raised s.ftable ofile i, proc := update s.proc np { s.proc np with ofile := o } })
    ⟨(s.proc np).ofile, ⟨nofun, fun fd _ => hfree fd⟩, ?_⟩ ?_).imp fun _ t ⟨o, ho, ht⟩ => ⟨o, ho.1, ht⟩
  · rw [update_eq_self]
    rfl
  rintro i hi t ⟨o, ⟨hdone, hrest⟩, rfl⟩
  cases hf : ofile i with
  | none =>
    refine ⟨o, ⟨fun fd hfd => ?_, fun fd hfd => hrest fd (Nat.le_of_succ_le hfd)⟩, by rw [raised_none hf]⟩
    rcases Nat.lt_succ_iff_lt_or_eq.mp hfd with hlt | rfl
    · exact hdone fd hlt
    · rw [hrest fd le_rfl hi, hf]
  | some f =>
    dsimp only
    unfold dupFile filedup
    rw [sat_bind, sat_bind, sat_get]
    split
    · trivial
    next hft =>
      split_ifs at hft
      cases hft
      rw [sat_modify]
      refine ⟨update o i (some f), ⟨fun fd hfd => ?_, fun fd hfd hlt => ?_⟩, ?_⟩
      · rcases Nat.lt_succ_iff_lt_or_eq.mp hfd with hlt | rfl
        · rw [update_of_ne hlt.ne, hdone fd hlt]
        · rw [update_self, hf]
      · rw [update_of_ne (Nat.ne_of_gt hfd), hrest fd (Nat.le_of_succ_le hfd) hlt]
      · rw [raised_some hf]
        simp only [update_self, update_idem]

/-- The files of a new child: the descriptors and the directory of the parent, each counted once more. -/
structure Shared (p np : Nat) (s t : Fs.State) : Prop where
  slot : np < Fs.nproc ∧ (s.proc np).state = .unused
  others : ∀ j, j ≠ np → t.proc j = s.proc j
  ofile : ∀ fd, fd < nofile → (t.proc np).ofile fd = (s.proc p).ofile fd
  files : t.ftable = raised s.ftable (s.proc p).ofile nofile
  cwd : ∃ k, (s.proc p).cwd = some k ∧ (t.proc np).cwd = some k ∧
    t.itable = update s.itable k { s.itable k with ref := (s.itable k).ref + 1 }

theorem fork_shares {P : Prop} {mem : Bool} (h : Fs.Inv P s) (hrun : (s.proc p).state = .running) :
    Sat (Fs.fork p mem) s (fun r t => r = -1 ∧ t = s ∨ ∃ np : Nat, r = np ∧ Shared p np s t) fun _ => True := by
  unfold Fs.fork
  rw [sat_bind, sat_get]
  cases hfind : (List.range Fs.nproc).find? fun i => (s.proc i).state = .unused with
  | none => exact .inl ⟨rfl, rfl⟩
  | some np =>
    have hnp : np < Fs.nproc := List.mem_range.mp (List.mem_of_find?_eq_some hfind)
    have hunused : (s.proc np).state = .unused := by simpa using List.find?_some hfind
    have hfree := (h.tidy.idle np not_false (by rw [hunused]; decide)).2
    have hne : p ≠ np := fun he => by
      rw [he, hunused] at hrun
      cases hrun
    dsimp only
    rw [sat_ite]
    refine ⟨fun _ => .inl ⟨rfl, rfl⟩, fun _ => ?_⟩
    refine (dupFiles_raises hfree).bind fun _ t ⟨o, ho, ht⟩ => ?_
    rw [sat_bind]
    refine (cwd_sat fun k hk => ?_).mono (fun _ _ h => h) fun _ _ => trivial
    unfold idup setInode Fs.setProc
    rw [sat_bind, sat_modify, sat_bind, sat_modify]
    subst ht
    rw [show (_ : Fs.State).proc p = s.proc p from update_of_ne hne ..] at hk
    refine .inr ⟨np, rfl, ⟨hnp, hunused⟩, fun j hj => ?_, fun fd hfd => ?_, rfl, k, hk, ?_, rfl⟩
    · simp only [State.inode, update_of_ne hj]
    · simp only [State.inode, update_self]
      exact ho fd hfd
    · simp only [update_self]

open Kernel

variable {lay : Layout} {initcode : List UInt8} {tr : List Event} {k k₀ k' : Machine} {c i : Nat}

/-- A failed `fork` shows nowhere but in the order and the contents of the free pages. -/
theorem unforked_same (hidle : Idle k) (h : Unforked k k') :
    (∀ j, (k'.proc j).state = (k.proc j).state ∧ (k'.proc j).pid = (k.proc j).pid ∧
      (k'.proc j).parent = (k.proc j).parent) ∧ k'.ftable = k.ftable ∧ k'.mem.freelist.Perm k.mem.freelist := by
  rcases h with rfl | ⟨m', np, hmv, -, hun, rfl⟩
  · exact ⟨fun _ => ⟨rfl, rfl, rfl⟩, rfl, .refl _⟩
  · refine ⟨fun j => ?_, rfl, ?_⟩
    · show (update k.proc np (k.proc np).freed j).state = _ ∧ (update k.proc np _ j).pid = _ ∧
        (update k.proc np _ j).parent = _
      by_cases hj : j = np
      · subst hj
        obtain ⟨hpid, hparent⟩ := hidle j hun
        rw [update_self, hun, hpid, hparent]
        exact ⟨rfl, rfl, rfl⟩
      · simp only [update_of_ne hj, and_self]
    · have hconserve := hmv.conserve
      rw [zero_add, zero_add] at hconserve
      exact coe_eq_coe.mp hconserve

/-- **`fork` duplicates the caller or does nothing.** If it returns a pid, the child has the parent's pages, each in a
page that was free, with its contents and flags, and the parent's registers but for `x0`; nothing of the parent has
changed, and in every later state the two have no page in common. The child has the parent's descriptors and directory;
a file is counted once more for each descriptor that is open on it, the directory once more. If it returns -1, every
slot, the counts and the set of free pages are as they were. -/
theorem fork_duplicates {img : Fs.Image} {trf : List (Nat × Fs.Call)}
    (hboot : boot initcode (initial lay) = .ok ((), k₀))
    (hrun : Run Kernel.step (fun _ _ => True) k₀ tr k) (hc : (k.cpu c).proc = some i) (himg : img.Consistent)
    (hfs : Run Fs.step (fun _ _ => True) (Fs.boot img) trf s) (hp : (s.proc p).state = .running) :
    Sat (Kernel.fork i) k (fun r k' =>
      (0 < r → ∃ np, r = (k'.proc np).pid ∧ Forked k k' i np ∧ ∀ tr' k'', Run Kernel.step (fun _ _ => True)
        k' tr' k'' → ∀ x ∈ own k''.mem (k''.proc i), x ∉ own k''.mem (k''.proc np)) ∧
      (r = -1 → (∀ j, (k'.proc j).state = (k.proc j).state ∧ (k'.proc j).pid = (k.proc j).pid ∧
        (k'.proc j).parent = (k.proc j).parent) ∧ k'.ftable = k.ftable ∧ k'.mem.freelist.Perm k.mem.freelist))
      otherPanic ∧
    ∀ mem, Sat (Fs.fork p mem) s (fun r t => (0 ≤ r → ∃ np, Shared p np s t) ∧ (r = -1 → t = s)) fun _ => True := by
  have h : Kernel.Inv ↑lay.pages False k 0 := Inv.run_of_boot hboot hrun fun hP => hP.elim
  have hidle : Idle k := hrun.invariant ((boot_stays _).of_ok hboot fun _ _ => ⟨rfl, rfl⟩) fun _ _ _ ha _ hs => ha.step hs
  obtain ⟨hi, hst⟩ := h.run c i hc
  refine ⟨(fork_spec h hi hst).imp fun r k' ⟨hinv, hend⟩ => ?_, fun mem => (fork_shares (himg.run hfs) hp).imp
    fun r t ht => ?_⟩
  · rcases hend with ⟨rfl, hun⟩ | ⟨np, rfl, hf⟩
    · exact ⟨nofun, fun _ => unforked_same hidle hun⟩
    · refine ⟨fun _ => ⟨np, by rw [hf.child.2.2.1], hf, fun tr' k'' hrun' x hx hx' => ?_⟩, nofun⟩
      have hne : np ≠ i := fun he => by
        rw [← he, hf.slot.2] at hst
        cases hst
      have hlater : Kernel.Inv ↑lay.pages False k'' 0 :=
        hrun'.invariant (P := fun k => Kernel.Inv ↑lay.pages False k 0) hinv fun _ _ _ ha _ hs => ha.step (fun hP => hP.elim) hs
      have hnodup := nodup_of_le (Multiset.le_add_right _ _) (hlater.pool_two hi hf.slot.1 hne).nodup
      exact disjoint_left.mp (Multiset.nodup_add.mp hnodup).2.2 hx hx'
  · rcases ht with ⟨rfl, rfl⟩ | ⟨np, rfl, hsh⟩
    · exact ⟨nofun, fun _ => rfl⟩
    · exact ⟨fun _ => ⟨np, hsh⟩, nofun⟩

/-- The first process forks. -/
theorem first_fork_duplicates : ∃ k₀ k, boot [] (initial smallKernel) = .ok ((), k₀) ∧
    Run Kernel.step (fun _ _ => True) k₀ [.schedule 0 0] k ∧
    Sat (Kernel.fork 0) k (fun r k' => 0 < r → ∃ np, r = (k'.proc np).pid ∧ Forked k k' 0 np) otherPanic := by
  obtain ⟨k₀, k, hk₀, hrun, hc, -, -⟩ := firstExec
  have hfs : Run Fs.step (fun _ _ => True) (Fs.boot Fs.chainImage) [] (Fs.boot Fs.chainImage) := .nil
  have hp : ((Fs.boot Fs.chainImage).proc 0).state = .running := rfl
  refine ⟨k₀, k, hk₀, hrun, (fork_duplicates hk₀ hrun hc Fs.chainImage_consistent hfs hp).1.imp fun r k' h hr => ?_⟩
  obtain ⟨np, hpid, hf, -⟩ := h.1 hr
  exact ⟨np, hpid, hf⟩

/-- A file with two descriptors gets two references more. -/
theorem fork_counts_twice : ∃ s r t, Run Fs.step (fun _ _ => True) (Fs.boot Fs.chainImage)
    [(0, .open Fs.down 0), (0, .dup 0)] s ∧ Fs.fork 0 true s = .ok (r, t) ∧ 0 ≤ r ∧
    (s.ftable 0).ref = 2 ∧ (t.ftable 0).ref = 4 := by
  have hexec : (StepRun.exec Fs.step (fun _ _ => True) (Fs.boot Fs.chainImage) [(0, .open Fs.down 0), (0, .dup 0)]).map
      (fun s => ((s.ftable 0).ref, (Fs.fork 0 true s).toOption.any fun x => 0 ≤ x.1 ∧ (x.2.ftable 0).ref = 4)) =
      some (2, true) := by decide +kernel
  obtain ⟨s, hs, hend⟩ := map_eq_some_iff.mp hexec
  obtain ⟨href, hfork⟩ := Prod.mk.inj hend
  cases hr : Fs.fork 0 true s with
  | ok x =>
    rw [hr] at hfork
    have h := of_decide_eq_true hfork
    exact ⟨s, x.1, x.2, run_of_exec hs, hr, h.1, href, h.2⟩
  | error e =>
    rw [hr] at hfork
    cases hfork

end Fork

/-! ### A failed exec -/

section Exec

open Kernel

variable {lay : Layout} {initcode : List UInt8} {tr : List Event} {k k₀ : Machine} {c i : Nat}

end Exec

end Xv6Armv8.ForkExec
