
import Mathlib.Algebra.BigOperators.Group.Finset.Piecewise
import Mathlib.Algebra.BigOperators.Group.Finset.Sigma
import Xv6Armv8.FsCalls

/-! The references that are kept in tables: descriptors that name open files, and open files and current
directories that name entries of the inode table. Every table changes one place at a time, so each count
changes by what the new content of the place adds and the old one took. A call that is in the middle of its
work has a balance: the references to open files that it has beyond, or short of, the descriptors. -/

namespace Xv6Armv8.Fs

open FileTable Function Finset Option

/-- The number of descriptors that name the open file. -/
def slotCount (proc : Nat → Proc) (f : Nat) : Nat :=
  ((Finset.range nproc ×ˢ Finset.range nofile).filter fun x => (proc x.1).ofile x.2 = some f).card

/-- The open file is in use and refers to the entry of the inode table. -/
def RefersTo (ff : File) (k : Nat) : Prop := 0 < ff.ref ∧ (ff.type = .inode ∨ ff.type = .device) ∧ ff.ip = k

instance (ff : File) (k : Nat) : Decidable (RefersTo ff k) := inferInstanceAs (Decidable (_ ∧ _ ∧ _))

/-- The number of open files that refer to the entry. -/
def fileCount (ft : Ftable) (k : Nat) : Nat := ((Finset.range nfile).filter fun f => RefersTo (ft f) k).card

/-- The number of processes whose current directory the entry is. -/
def cwdCount (proc : Nat → Proc) (k : Nat) : Nat :=
  ((Finset.range nproc).filter fun p => (proc p).cwd = some k).card

variable {ft : Ftable} {proc : Nat → Proc} {F : Nat → Int} {f g k p fd : Nat} {q : Proc} {ff : File}

/-! ### One place changes -/

/-- One if it holds, else nothing. -/
def ind (P : Prop) [Decidable P] : Int := if P then 1 else 0

theorem ind_of {P : Prop} [Decidable P] (h : P) : ind P = 1 := if_pos h

theorem ind_of_not {P : Prop} [Decidable P] (h : ¬P) : ind P = 0 := if_neg h

theorem card_filter_eq {n : Nat} {P : Nat → Prop} [DecidablePred P] :
    (((Finset.range n).filter P).card : Int) = ∑ x ∈ Finset.range n, ind (P x) := by
  rw [card_filter]
  push_cast
  rfl

theorem sum_update {α : Type} {n p : Nat} (hp : p < n) (h : Nat → α) (v : α) (w : α → Int) :
    ∑ x ∈ Finset.range n, w (update h p v x) = ∑ x ∈ Finset.range n, w (h x) + (w v - w (h p)) := by
  have hmem : p ∈ Finset.range n := mem_range.mpr hp
  have hpoint : ∀ x, w (update h p v x) = update (fun x => w (h x)) p (w v) x :=
    fun x => Function.apply_update (fun _ => w) h p v x
  calc ∑ x ∈ Finset.range n, w (update h p v x)
      = ∑ x ∈ Finset.range n, update (fun x => w (h x)) p (w v) x :=
        sum_congr rfl fun x _ => hpoint x
    _ = w v + ∑ x ∈ (Finset.range n).erase p, w (h x) := by
        rw [sum_update_of_mem hmem, sdiff_singleton_eq_erase]
    _ = _ := by
        rw [← add_sum_erase _ (fun x => w (h x)) hmem]
        omega

/-- The number of descriptors of a process that name the open file. -/
def fdCount (ofile : Ofile) (f : Nat) : Int := ∑ fd ∈ Finset.range nofile, ind (ofile fd = some f)

theorem slotCount_eq : (slotCount proc f : Int) = ∑ p ∈ Finset.range nproc, fdCount (proc p).ofile f := by
  unfold slotCount fdCount ind
  rw [card_filter, sum_product]
  push_cast
  rfl

theorem slotCount_update (hp : p < nproc) : (slotCount (update proc p q) f : Int) =
    slotCount proc f + (fdCount q.ofile f - fdCount (proc p).ofile f) := by
  rw [slotCount_eq, slotCount_eq]
  exact sum_update hp proc q fun q => fdCount q.ofile f

theorem fdCount_update {ofile : Ofile} {v : Option Nat} (hfd : fd < nofile) :
    fdCount (update ofile fd v) f = fdCount ofile f + (ind (v = some f) - ind (ofile fd = some f)) :=
  sum_update hfd ofile v fun v => ind (v = some f)

theorem fileCount_update (hf : f < nfile) : (fileCount (update ft f ff) k : Int) =
    fileCount ft k + (ind (RefersTo ff k) - ind (RefersTo (ft f) k)) := by
  unfold fileCount
  rw [card_filter_eq, card_filter_eq]
  exact sum_update hf ft ff fun ff => ind (RefersTo ff k)

theorem cwdCount_update (hp : p < nproc) : (cwdCount (update proc p q) k : Int) =
    cwdCount proc k + (ind (q.cwd = some k) - ind ((proc p).cwd = some k)) := by
  unfold cwdCount
  rw [card_filter_eq, card_filter_eq]
  exact sum_update hp proc q fun q => ind (q.cwd = some k)

theorem cwdCount_pos (hp : p < nproc) (h : (proc p).cwd = some k) : 0 < cwdCount proc k :=
  card_pos.mpr ⟨p, mem_filter.mpr ⟨mem_range.mpr hp, h⟩⟩

theorem fileCount_pos (hf : f < nfile) (h : RefersTo (ft f) k) : 0 < fileCount ft k :=
  card_pos.mpr ⟨f, mem_filter.mpr ⟨mem_range.mpr hf, h⟩⟩

theorem slotCount_pos (hp : p < nproc) (hfd : fd < nofile) (h : (proc p).ofile fd = some f) :
    0 < slotCount proc f := by
  unfold slotCount
  rw [card_pos]
  refine ⟨(p, fd), ?_⟩
  rw [mem_filter, mem_product, mem_range, mem_range]
  exact ⟨⟨hp, hfd⟩, h⟩

theorem fileCount_same (hf : f < nfile) (h : ∀ k, RefersTo ff k ↔ RefersTo (ft f) k) :
    fileCount (update ft f ff) k = fileCount ft k := by
  have hcount : (fileCount (update ft f ff) k : Int) = _ := fileCount_update hf
  have hsame : ind (RefersTo ff k) = ind (RefersTo (ft f) k) := if_congr (h k) rfl rfl
  omega

/-! ### The table of open files -/

/-- A single reference to the open file. -/
def one (f : Nat) : Nat → Int := fun g => ind (g = f)

/-- The counts of the open files are their descriptors and the balance of the call. -/
structure FilesOk (ft : Ftable) (proc : Nat → Proc) (F : Nat → Int) : Prop where
  refs : ∀ f, ((ft f).ref : Int) = slotCount proc f + F f
  free : ∀ f, (ft f).ref = 0 → (ft f).type = .none
  out : ∀ f, nfile ≤ f → (ft f).ref = 0

theorem FilesOk.lt (h : FilesOk ft proc F) (hf : (ft f).ref ≠ 0) : f < nfile := by
  by_contra hge
  exact hf (h.out f (Nat.le_of_not_lt hge))

theorem FilesOk.update {F' : Nat → Int} (h : FilesOk ft proc F) (hf : f < nfile)
    (href : (ff.ref : Int) = (ft f).ref + (F' f - F f)) (hF : ∀ g, g ≠ f → F' g = F g)
    (hfree : ff.ref = 0 → ff.type = .none) : FilesOk (Function.update ft f ff) proc F' where
  refs := fun g => by
    by_cases hg : g = f
    · have hold := h.refs f
      rw [hg, update_self]
      omega
    · rw [update_of_ne hg, hF g hg]
      exact h.refs g
  free := fun g => by
    by_cases hg : g = f
    · rw [hg, update_self]
      exact hfree
    · rw [update_of_ne hg]
      exact h.free g
  out := fun g hge => by
    have hg : g ≠ f := by omega
    rw [update_of_ne hg]
    exact h.out g hge

theorem one_self : one f f = 1 := ind_of rfl

theorem one_of_ne (h : g ≠ f) : one f g = 0 := ind_of_not h

theorem FilesOk.set (h : FilesOk ft proc F) (hf : (ft f).ref ≠ 0) (href : ff.ref = (ft f).ref) :
    FilesOk (Function.update ft f ff) proc F :=
  h.update (h.lt hf) (by omega) (fun _ _ => rfl) fun h0 => absurd (href ▸ h0) hf

variable {ft' : Ftable}

theorem filealloc_eq (h : filealloc ft = some (f, ft')) :
    f < nfile ∧ (ft f).ref = 0 ∧ ft' = update ft f { ft f with ref := 1 } := by
  obtain ⟨g, hg, heq⟩ := map_eq_some_iff.mp h
  obtain ⟨rfl, rfl⟩ := Prod.mk.inj heq
  refine ⟨List.mem_range.mp (List.mem_of_find?_eq_some hg), ?_, rfl⟩
  simpa using List.find?_some hg

theorem FilesOk.alloc (h : FilesOk ft proc F) (ha : filealloc ft = some (f, ft')) :
    FilesOk ft' proc (F + one f) := by
  obtain ⟨hlt, h0, rfl⟩ := filealloc_eq ha
  refine h.update hlt ?_ (fun g hg => ?_) nofun
  · rw [h0, Pi.add_apply, one_self]
    push_cast
    omega
  · rw [Pi.add_apply, one_of_ne hg, add_zero]

theorem filedup_eq (h : filedup ft f = .ok ft') :
    (ft f).ref ≠ 0 ∧ ft' = update ft f { ft f with ref := (ft f).ref + 1 } := by
  unfold filedup at h
  split at h
  · cases h
  · cases h
    exact ⟨by omega, rfl⟩

theorem FilesOk.dup (h : FilesOk ft proc F) (hd : filedup ft f = .ok ft') :
    FilesOk ft' proc (F + one f) := by
  obtain ⟨h0, rfl⟩ := filedup_eq hd
  refine h.update (h.lt h0) ?_ (fun g hg => ?_) nofun
  · rw [Pi.add_apply, one_self]
    push_cast
    omega
  · rw [Pi.add_apply, one_of_ne hg, add_zero]

theorem filedrop_eq {last : Option File} (h : filedrop ft f = .ok (last, ft')) :
    (1 < (ft f).ref ∧ last = none ∧ ft' = update ft f { ft f with ref := (ft f).ref - 1 }) ∨
      ((ft f).ref = 1 ∧ last = some (ft f) ∧ ft' = update ft f { ft f with ref := 0, type := .none }) := by
  unfold filedrop at h
  split at h
  · cases h
  · split at h
    · cases h
      exact .inl ⟨by omega, rfl, rfl⟩
    · cases h
      exact .inr ⟨by omega, rfl, rfl⟩

theorem FilesOk.drop {last : Option File} (h : FilesOk ft proc F)
    (hd : filedrop ft f = .ok (last, ft')) : FilesOk ft' proc (F - one f) := by
  have hother : ∀ g, g ≠ f → (F - one f) g = F g := fun g hg => by
    rw [Pi.sub_apply, one_of_ne hg, sub_zero]
  rcases filedrop_eq hd with ⟨h1, -, rfl⟩ | ⟨h1, -, rfl⟩
  · refine h.update (h.lt (by omega)) ?_ hother fun h0 => absurd h0 (by dsimp only; omega)
    rw [Pi.sub_apply, one_self]
    push_cast [Nat.cast_sub h1.le]
    omega
  · refine h.update (h.lt (by omega)) ?_ hother fun _ => rfl
    rw [h1, Pi.sub_apply, one_self]
    push_cast
    omega

/-! ### Descriptors -/

theorem FilesOk.ofile {F' : Nat → Int} (h : FilesOk ft proc F) (hp : p < nproc)
    (hF : ∀ f, fdCount q.ofile f + F' f = fdCount (proc p).ofile f + F f) :
    FilesOk ft (Function.update proc p q) F' where
  refs := fun f => by
    have hold := h.refs f
    have hchange := hF f
    rw [slotCount_update hp]
    omega
  free := h.free
  out := h.out

theorem FilesOk.keep (h : FilesOk ft proc F) (hq : q.ofile = (proc p).ofile) :
    FilesOk ft (Function.update proc p q) F where
  refs := fun f => by
    have hpoint : ∀ i, (Function.update proc p q i).ofile = (proc i).ofile := fun i => by
      by_cases hi : i = p
      · rw [hi, update_self, hq]
      · rw [update_of_ne hi]
    unfold slotCount
    simp only [hpoint]
    exact h.refs f
  free := h.free
  out := h.out

theorem ind_some (f g : Nat) : ind (some f = some g) = one f g :=
  if_congr (by rw [some_inj, eq_comm]) rfl rfl

theorem ind_none (g : Nat) : ind ((none : Option Nat) = some g) = 0 := ind_of_not (by simp)

theorem FilesOk.place (h : FilesOk ft proc F) (hp : p < nproc) (hfd : fd < nofile)
    (hnone : (proc p).ofile fd = none) :
    FilesOk ft (Function.update proc p
      { proc p with ofile := Function.update (proc p).ofile fd (some f) }) (F - one f) := by
  refine h.ofile hp fun g => ?_
  rw [fdCount_update hfd, hnone, ind_none, ind_some, Pi.sub_apply]
  omega

theorem FilesOk.unplace (h : FilesOk ft proc F) (hp : p < nproc) (hfd : fd < nofile)
    (hsome : (proc p).ofile fd = some f) :
    FilesOk ft (Function.update proc p
      { proc p with ofile := Function.update (proc p).ofile fd none }) (F + one f) := by
  refine h.ofile hp fun g => ?_
  rw [fdCount_update hfd, hsome, ind_none, ind_some, Pi.add_apply]
  omega

theorem fdalloc_eq {ofile ofile' : Ofile} (h : fdalloc ofile f = some (fd, ofile')) :
    fd < nofile ∧ ofile fd = none ∧ ofile' = update ofile fd (some f) := by
  obtain ⟨g, hg, heq⟩ := map_eq_some_iff.mp h
  obtain ⟨rfl, rfl⟩ := Prod.mk.inj heq
  refine ⟨List.mem_range.mp (List.mem_of_find?_eq_some hg), ?_, rfl⟩
  simpa using List.find?_some hg

theorem argfd_eq {ofile : Ofile} {v : Int} (h : argfd ofile v = some (fd, f)) : fd < nofile ∧ ofile fd = some f := by
  unfold argfd at h
  split at h
  · cases h
  · obtain ⟨g, hg, heq⟩ := map_eq_some_iff.mp h
    obtain ⟨rfl, rfl⟩ := Prod.mk.inj heq
    exact ⟨by omega, hg⟩

/-! ### The inode table -/

/-- The references to an entry of the inode table that are kept in tables. -/
def baseOf (ft : Ftable) (proc : Nat → Proc) (k : Nat) : Int := fileCount ft k + cwdCount proc k

theorem baseOf_file (hf : f < nfile) (h : ∀ k, RefersTo ff k ↔ RefersTo (ft f) k) :
    baseOf (update ft f ff) proc k = baseOf ft proc k := by
  unfold baseOf
  rw [fileCount_same hf h]

theorem baseOf_proc (h : q.cwd = (proc p).cwd) : baseOf ft (update proc p q) k = baseOf ft proc k := by
  have hpoint : ∀ i, (update proc p q i).cwd = (proc i).cwd := fun i => by
    by_cases hi : i = p
    · rw [hi, update_self, h]
    · rw [update_of_ne hi]
  unfold baseOf cwdCount
  simp only [hpoint]

theorem baseOf_update (hp : p < nproc) : baseOf ft (update proc p q) k =
    baseOf ft proc k + (ind (q.cwd = some k) - ind ((proc p).cwd = some k)) := by
  have hcount : (cwdCount (update proc p q) k : Int) = _ := cwdCount_update hp
  unfold baseOf
  omega

/-- Processes that do not run have neither descriptors nor a directory, and the others have a directory;
except for those that are being changed. -/
structure Tidy (X : Nat → Prop) (proc : Nat → Proc) : Prop where
  idle : ∀ p, ¬X p → (proc p).state ≠ .running → (proc p).cwd = none ∧ ∀ fd, fd < nofile → (proc p).ofile fd = none
  home : ∀ p, (proc p).state = .running → ∃ k, (proc p).cwd = some k

variable {X X' : Nat → Prop}

theorem Tidy.update (h : Tidy X proc) (hX : ∀ i, i ≠ p → X i → X' i)
    (hidle : ¬X' p → q.state ≠ .running → q.cwd = none ∧ ∀ fd, fd < nofile → q.ofile fd = none)
    (hhome : q.state = .running → ∃ k, q.cwd = some k) : Tidy X' (Function.update proc p q) where
  idle := fun i => by
    by_cases hi : i = p
    · rw [hi, update_self]
      exact hidle
    · rw [update_of_ne hi]
      exact fun hX' => h.idle i fun hXi => hX' (hX i hi hXi)
  home := fun i => by
    by_cases hi : i = p
    · rw [hi, update_self]
      exact hhome
    · rw [update_of_ne hi]
      exact h.home i

theorem Tidy.ofile {ofile : Ofile} (h : Tidy X proc) (hp : (proc p).state = .running ∨ X p) :
    Tidy X (Function.update proc p { proc p with ofile := ofile }) :=
  h.update (fun _ _ hX => hX) (fun hX hs => absurd (hp.resolve_right hX) hs) (h.home p)

end Xv6Armv8.Fs
