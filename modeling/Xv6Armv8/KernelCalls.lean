import Xv6Armv8.KernelOwn

/-! The system calls keep the pages together. Each operation is followed on every path, the failing ones
too; a panic ends the run, so nothing is asked of it. -/

namespace Xv6Armv8.Kernel

open Spec Vm FileTable Function Finset

variable {T H A : Multiset Nat} {P : Prop} {k k' : Machine} {i c : Nat} {E : String → Prop}

/-- A panic ends the run, and none of those that may be comes from a page table that is not as the size of
its process says. -/
def otherPanic (e : String) : Prop :=
  e ∈ ["null pointer", "filedup", "fileclose", "init exiting", "uvmswitch", "loadseg: address should exist"]

@[simp] theorem sat_vm {α : Type} {x : VmM α} {Q : α → Machine → Prop} :
    Sat (vm x) k Q E ↔ Sat x k.mem (fun a m => Q a { k with mem := m }) E := by
  unfold Sat vm
  cases x k.mem with
  | ok r => exact Iff.rfl
  | error e => exact Iff.rfl

@[simp] theorem sat_setProc {f : Proc → Proc} {Q : Unit → Machine → Prop} :
    Sat (setProc i f) k Q E ↔ Q () { k with proc := update k.proc i (f (k.proc i)) } := Iff.rfl

@[simp] theorem sat_deref_some {a : Nat} {Q : Nat → Machine → Prop} :
    Sat (deref (some a)) k Q E ↔ Q a k := Iff.rfl

theorem sat_deref {o : Option Nat} {Q : Nat → Machine → Prop} (h : ∀ a, o = some a → Q a k) :
    Sat (deref o) k Q otherPanic := by
  cases o with
  | none => exact .head _
  | some a => exact h a rfl

/-! ### Files -/

/-- The invariant after an operation that leaves the processes and the CPUs. -/
def Kept (T : Multiset Nat) (P : Prop) (k : Machine) (H : Multiset Nat) (k' : Machine) : Prop :=
  Inv T P k' H ∧ k'.proc = k.proc ∧ k'.cpu = k.cpu

theorem Kept.trans {k₁ k₂ : Machine} {H₁ H₂ : Multiset Nat} (h : Kept T P k H₁ k₁) (h' : Kept T P k₁ H₂ k₂) :
    Kept T P k H₂ k₂ := ⟨h'.1, h'.2.1.trans h.2.1, h'.2.2.trans h.2.2⟩

theorem update_pipe_congr {ft : Ftable} {f g : Nat} {e : File} (he : e.type = (ft f).type)
    (hp : e.pipe = (ft f).pipe) (hw : e.writable = (ft f).writable) :
    (update ft f e g).type = (ft g).type ∧ (update ft f e g).pipe = (ft g).pipe ∧
      (update ft f e g).writable = (ft g).writable := by
  by_cases h : g = f
  · subst h
    simp only [update_self]
    exact ⟨he, hp, hw⟩
  · simp only [update_of_ne h]
    exact ⟨trivial, trivial, trivial⟩

theorem Inv.setRef {f n : Nat} (h : Inv T P k H) (hf : f < nfile) (hn : n ≠ 0) :
    Inv T P { k with ftable := Function.update k.ftable f { k.ftable f with ref := n } } H := by
  refine h.ftable (fun g _ => update_pipe_congr rfl rfl rfl) (fun g hg => ?_) fun g hg => ?_
  · by_cases hgf : g = f
    · subst hgf
      simp only [update_self] at hg
      exact absurd hg hn
    · simp only [update_of_ne hgf] at hg ⊢
      exact h.pipes.closed g hg
  · rw [update_of_ne (by omega)]
    exact h.pipes.out g hg

theorem kfiledup_spec {f : Nat} (h : Inv T P k H) :
    Sat (kfiledup f) k (fun _ k' => Kept T P k H k' ∧ k'.mem = k.mem) otherPanic := by
  unfold kfiledup
  rw [sat_bind, sat_get]
  unfold filedup
  by_cases href : (k.ftable f).ref < 1
  · rw [if_pos href]
    show otherPanic "filedup"
    simp [otherPanic]
  · rw [if_neg href]
    have hf : f < nfile := by
      by_contra hge
      have := h.pipes.out f (not_lt.mp hge)
      omega
    exact ⟨⟨h.setRef hf (Nat.succ_ne_zero _), rfl, rfl⟩, rfl⟩

theorem Inv.clear {f : Nat} (h : Inv T P k H) (hf : f < nfile) (htype : (k.ftable f).type ≠ .pipe) :
    Inv T P { k with ftable := Function.update k.ftable f { k.ftable f with ref := 0, type := .none } } H := by
  refine h.ftable (fun g hg => ?_) (fun g hg => ?_) fun g hg => ?_
  · by_cases hgf : g = f
    · subst hgf
      simp only [update_self] at hg
      rcases hg with hg | hg
      · cases hg
      · exact absurd hg htype
    · simp only [update_of_ne hgf]
      exact ⟨trivial, trivial, trivial⟩
  · by_cases hgf : g = f
    · subst hgf
      simp
    · simp only [update_of_ne hgf] at hg ⊢
      exact h.pipes.closed g hg
  · rw [update_of_ne (by omega)]
    exact h.pipes.out g hg

section PipeEnd

variable {ft : Ftable} {pipes : Nat → Pipe} {f : Nat}

/-- The table without the entry `f`. -/
def without (ft : Ftable) (f : Nat) : Ftable := update ft f { ft f with ref := 0, type := .none }

theorem without_self : (without ft f f).type = .none := by simp [without]

theorem without_of_ne {g : Nat} (h : g ≠ f) : without ft f g = ft g := update_of_ne h _ _

theorem ne_of_without {g : Nat} (h : (without ft f g).type = .pipe) : g ≠ f := by
  rintro rfl
  rw [without_self] at h
  cases h

theorem PipesOk.shut (h : PipesOk ft pipes) (hf : f < nfile) (ht : (ft f).type = .pipe) :
    PipesOk (without ft f) (update pipes (ft f).pipe ((pipes (ft f).pipe).shut (ft f).writable)) := by
  refine ⟨fun g hg => ?_, fun g hg => ?_, fun g g' hg hg' hp hw => ?_, fun g w hg => ?_⟩
  · by_cases hgf : g = f
    · rw [hgf, without_self]
      decide
    · rw [without_of_ne hgf] at hg ⊢
      exact h.closed g hg
  · rw [without_of_ne (by omega)]
    exact h.out g hg
  · have hgf := ne_of_without hg
    have hgf' := ne_of_without hg'
    rw [without_of_ne hgf] at hg hp hw
    rw [without_of_ne hgf'] at hg' hp hw
    exact h.uniq g g' hg hg' hp hw
  · have hgf := ne_of_without hg
    rw [without_of_ne hgf] at hg ⊢
    have hrest : (∃ g', (without ft f g').type = .pipe ∧ (without ft f g').pipe = (ft g).pipe ∧
        (without ft f g').writable = w) ↔
        ∃ g', g' ≠ f ∧ (ft g').type = .pipe ∧ (ft g').pipe = (ft g).pipe ∧ (ft g').writable = w := by
      constructor
      · rintro ⟨g', ht', hp', hw'⟩
        have hne := ne_of_without ht'
        rw [without_of_ne hne] at ht' hp' hw'
        exact ⟨g', hne, ht', hp', hw'⟩
      · rintro ⟨g', hne, ht', hp', hw'⟩
        exact ⟨g', by rw [without_of_ne hne]; exact ⟨ht', hp', hw'⟩⟩
    rw [hrest]
    by_cases hpipe : (ft g).pipe = (ft f).pipe
    · rw [hpipe, update_self, isOpen_shut]
      by_cases hw : w = (ft f).writable
      · rw [if_pos hw]
        refine ⟨fun hfalse => Bool.noConfusion hfalse, ?_⟩
        rintro ⟨g', hne, ht', hp', hw'⟩
        exact absurd (h.uniq g' f ht' ht hp' (hw'.trans hw)) hne
      · rw [if_neg hw, h.ends f w ht]
        refine ⟨fun ⟨g', ht', hp', hw'⟩ => ⟨g', ?_, ht', hp', hw'⟩, fun ⟨g', _, ht', hp', hw'⟩ =>
          ⟨g', ht', hp', hw'⟩⟩
        rintro rfl
        exact hw hw'.symm
    · rw [update_of_ne hpipe, h.ends g w hg]
      refine ⟨fun ⟨g', ht', hp', hw'⟩ => ⟨g', ?_, ht', hp', hw'⟩, fun ⟨g', _, ht', hp', hw'⟩ =>
        ⟨g', ht', hp', hw'⟩⟩
      rintro rfl
      exact hpipe hp'.symm

theorem PipesOk.mem_without (h : PipesOk ft pipes) (hf : f < nfile) (ht : (ft f).type = .pipe) {x : Nat} :
    x ∈ livePipes (without ft f) ↔
      x ∈ livePipes ft ∧ (x = (ft f).pipe → (pipes x).isOpen (!(ft f).writable) = true) := by
  rw [mem_livePipes (h.shut hf ht), mem_livePipes h]
  constructor
  · rintro ⟨g, hg, hx⟩
    have hne := ne_of_without hg
    rw [without_of_ne hne] at hg hx
    refine ⟨⟨g, hg, hx⟩, ?_⟩
    rintro rfl
    rw [h.ends f _ ht]
    refine ⟨g, hg, hx, ?_⟩
    by_contra hw
    refine hne (h.uniq g f hg ht hx ?_)
    cases hgw : (ft g).writable <;> cases hfw : (ft f).writable <;> simp_all
  · rintro ⟨⟨g, hg, hx⟩, hopen⟩
    by_cases hne : g = f
    · subst hne
      have hop := hopen hx.symm
      rw [← hx, h.ends g _ ht] at hop
      obtain ⟨g', ht', hp', hw'⟩ := hop
      have hne' : g' ≠ g := by
        rintro rfl
        cases hgw : (ft g').writable <;> simp [hgw] at hw'
      exact ⟨g', by rw [without_of_ne hne']; exact ⟨ht', hp'.trans hx⟩⟩
    · exact ⟨g, by rw [without_of_ne hne]; exact ⟨hg, hx⟩⟩

theorem closed_iff (p : Pipe) (w : Bool) :
    ((p.shut w).readopen = false ∧ (p.shut w).writeopen = false) ↔ p.isOpen (!w) = false := by
  cases w <;> simp [Pipe.shut, Pipe.isOpen]

end PipeEnd

/-- The last reference of an end of a pipe; the page goes when the other end is closed. -/
theorem pipeclose_spec {f : Nat} (h : Inv T P k H) (hf : f < nfile) (ht : (k.ftable f).type = .pipe) :
    Sat (pipeclose (k.ftable f).pipe (k.ftable f).writable)
      { k with ftable := without k.ftable f } (fun _ k' => Kept T P k H k') otherPanic := by
  have hok := h.pipes.shut hf ht
  have hmem := fun x => h.pipes.mem_without hf ht (x := x)
  have hpi : (k.ftable f).pipe ∈ livePipes k.ftable := (mem_livePipes h.pipes).mpr ⟨f, ht, rfl⟩
  unfold pipeclose
  rw [sat_bind, sat_modify, sat_bind, sat_get]
  simp only [update_self]
  rw [sat_ite, closed_iff]
  refine ⟨fun hclosed => ?_, fun hopen => ?_⟩
  · have herase : livePipes (without k.ftable f) = (livePipes k.ftable).erase (k.ftable f).pipe := by
      ext x
      rw [hmem, mem_erase, and_comm]
      refine and_congr_left fun _ => ⟨fun hx e => ?_, fun hx e => absurd e hx⟩
      rw [e] at hx
      have := hx rfl
      rw [hclosed] at this
      cases this
    have hval : (livePipes k.ftable).val = (livePipes (without k.ftable f)).val + {(k.ftable f).pipe} := by
      rw [herase, erase_val, add_comm, Multiset.singleton_add, Multiset.cons_erase hpi]
    have hpool : Pool k.mem ((livePipes k.ftable).val + H) := h.pool.mono (by
      rw [inUse, add_assoc]
      exact Multiset.le_add_left _ _)
    have hvalid : ValidPage (k.ftable f).pipe := hpool.valid_used (Multiset.mem_add.mpr (.inl hpi))
    rw [sat_vm, sat_kfree hvalid h.hi h.lo]
    refine ⟨h.files ?_ hok, rfl, rfl⟩
    refine (freed_moves (m := k.mem) (k.ftable f).pipe ((livePipes (without k.ftable f)).val + H)).congr ?_ rfl
    rw [hval]
    abel
  · have hopen' : (k.pipes (k.ftable f).pipe).isOpen (!(k.ftable f).writable) = true := by
      simpa using hopen
    have hlive : livePipes (without k.ftable f) = livePipes k.ftable := by
      ext x
      rw [hmem]
      refine and_iff_left fun e => ?_
      rw [e]
      exact hopen'
    exact ⟨h.files ((Moves.refl k.mem _).congr rfl (by rw [hlive])) hok, rfl, rfl⟩

theorem fileclose_spec {f : Nat} (h : Inv T P k H) :
    Sat (fileclose f) k (fun _ k' => Kept T P k H k') otherPanic := by
  unfold fileclose
  rw [sat_bind, sat_get]
  unfold filedrop
  by_cases href : (k.ftable f).ref < 1
  · rw [if_pos href]
    show otherPanic "fileclose"
    simp [otherPanic]
  · have hf : f < nfile := by
      by_contra hge
      have := h.pipes.out f (not_lt.mp hge)
      omega
    rw [if_neg href]
    by_cases hmany : 0 < (k.ftable f).ref - 1
    · rw [if_pos hmany]
      exact ⟨h.setRef hf (by omega), rfl, rfl⟩
    · rw [if_neg hmany]
      show Sat (do
        modify fun k' => { k' with ftable := without k.ftable f }
        if (k.ftable f).type = .pipe then pipeclose (k.ftable f).pipe (k.ftable f).writable else pure ()) k _ _
      rw [sat_bind, sat_modify, sat_ite]
      refine ⟨fun ht => pipeclose_spec h hf ht, fun ht => ⟨h.clear hf ht, rfl, rfl⟩⟩

/-- A free entry is taken. -/
structure Taken (k k' : Machine) (f : Nat) : Prop where
  lt : f < nfile
  free : (k.ftable f).ref = 0
  ref : (k'.ftable f).ref = 1
  type : (k'.ftable f).type = (k.ftable f).type
  others : ∀ g, g ≠ f → k'.ftable g = k.ftable g

theorem Taken.type_eq {f : Nat} (h : Taken k k' f) (g : Nat) : (k'.ftable g).type = (k.ftable g).type := by
  by_cases hg : g = f
  · rw [hg, h.type]
  · rw [h.others g hg]

theorem kfilealloc_spec (h : Inv T P k H) :
    Sat kfilealloc k (fun r k' => Kept T P k H k' ∧ ∀ f, r = some f → Taken k k' f) E := by
  unfold kfilealloc
  rw [sat_bind, sat_get]
  unfold filealloc
  cases hfind : (List.range nfile).find? fun f => (k.ftable f).ref = 0 with
  | none => exact ⟨⟨h, rfl, rfl⟩, fun f h => (Option.some_ne_none f h.symm).elim⟩
  | some f =>
    have hf : f < nfile := List.mem_range.mp (List.mem_of_find?_eq_some hfind)
    have href : (k.ftable f).ref = 0 := by simpa using List.find?_some hfind
    refine ⟨⟨h.setRef hf Nat.one_ne_zero, rfl, rfl⟩, fun g hg => ?_⟩
    cases hg
    refine ⟨hf, href, ?_, ?_, fun g hg => ?_⟩
    · simp only [update_self]
    · simp only [update_self]
    · exact update_of_ne hg ..

section NewPipe

variable {ft : Ftable} {pipes : Nat → Pipe} {f0 f1 pi : Nat} {e0 e1 : File}

/-- The ends of a new pipe. -/
structure Ends (ft : Ftable) (f0 f1 pi : Nat) (e0 e1 : File) : Prop where
  lt0 : f0 < nfile
  lt1 : f1 < nfile
  ne : f0 ≠ f1
  fresh : ∀ g, (ft g).type = .pipe → g ≠ f0 ∧ g ≠ f1 ∧ (ft g).pipe ≠ pi
  read : e0.type = .pipe ∧ e0.pipe = pi ∧ e0.writable = false ∧ e0.ref ≠ 0
  write : e1.type = .pipe ∧ e1.pipe = pi ∧ e1.writable = true ∧ e1.ref ≠ 0

/-- The table with the two ends. -/
def withEnds (ft : Ftable) (f0 f1 : Nat) (e0 e1 : File) : Ftable :=
  update (update ft f0 e0) f1 e1

theorem Ends.read_eq (h : Ends ft f0 f1 pi e0 e1) : withEnds ft f0 f1 e0 e1 f0 = e0 := by
  rw [withEnds, update_of_ne h.ne, update_self]

theorem withEnds_write : withEnds ft f0 f1 e0 e1 f1 = e1 := update_self _ _ _

theorem withEnds_of_ne {g : Nat} (h0 : g ≠ f0) (h1 : g ≠ f1) : withEnds ft f0 f1 e0 e1 g = ft g := by
  rw [withEnds, update_of_ne h1, update_of_ne h0]

/-- A file of the new table refers to a pipe end just when it is one of the two or was before. -/
theorem Ends.iff (h : Ends ft f0 f1 pi e0 e1) {g x : Nat} {w : Bool} :
    ((withEnds ft f0 f1 e0 e1 g).type = .pipe ∧ (withEnds ft f0 f1 e0 e1 g).pipe = x ∧
        (withEnds ft f0 f1 e0 e1 g).writable = w) ↔
      (x = pi ∧ g = if w then f1 else f0) ∨ ((ft g).type = .pipe ∧ (ft g).pipe = x ∧ (ft g).writable = w) := by
  obtain ⟨hr1, hr2, hr3, -⟩ := h.read
  obtain ⟨hw1, hw2, hw3, -⟩ := h.write
  by_cases hg0 : g = f0
  · have hold : ¬(ft g).type = .pipe := fun ht => (h.fresh g ht).1 hg0
    subst hg0
    rw [h.read_eq, hr1, hr2, hr3]
    constructor
    · rintro ⟨-, rfl, rfl⟩
      exact .inl ⟨rfl, rfl⟩
    · rintro (⟨rfl, hg⟩ | ⟨ht, -⟩)
      · cases w
        · exact ⟨rfl, rfl, rfl⟩
        · exact absurd hg h.ne
      · exact absurd ht hold
  · by_cases hg1 : g = f1
    · have hold : ¬(ft g).type = .pipe := fun ht => (h.fresh g ht).2.1 hg1
      subst hg1
      rw [withEnds_write, hw1, hw2, hw3]
      constructor
      · rintro ⟨-, rfl, rfl⟩
        exact .inl ⟨rfl, rfl⟩
      · rintro (⟨rfl, hg⟩ | ⟨ht, -⟩)
        · cases w
          · exact absurd hg hg0
          · exact ⟨rfl, rfl, rfl⟩
        · exact absurd ht hold
    · rw [withEnds_of_ne hg0 hg1]
      cases w <;> simp [hg0, hg1]

theorem Ends.type_iff (h : Ends ft f0 f1 pi e0 e1) {g x : Nat} :
    ((withEnds ft f0 f1 e0 e1 g).type = .pipe ∧ (withEnds ft f0 f1 e0 e1 g).pipe = x) ↔
      (x = pi ∧ (g = f0 ∨ g = f1)) ∨ ((ft g).type = .pipe ∧ (ft g).pipe = x) := by
  constructor
  · rintro ⟨ht, hp⟩
    rcases h.iff.mp ⟨ht, hp, rfl⟩ with ⟨hx, hg⟩ | ⟨ht', hp', -⟩
    · refine .inl ⟨hx, ?_⟩
      split at hg
      · exact .inr hg
      · exact .inl hg
    · exact .inr ⟨ht', hp'⟩
  · rintro (⟨rfl, rfl | rfl⟩ | ⟨ht, hp⟩)
    · exact ⟨(h.iff (w := false)).mpr (.inl ⟨rfl, rfl⟩) |>.1, (h.iff (w := false)).mpr (.inl ⟨rfl, rfl⟩) |>.2.1⟩
    · exact ⟨(h.iff (w := true)).mpr (.inl ⟨rfl, rfl⟩) |>.1, (h.iff (w := true)).mpr (.inl ⟨rfl, rfl⟩) |>.2.1⟩
    · have := h.iff.mpr (.inr ⟨ht, hp, rfl⟩)
      exact ⟨this.1, this.2.1⟩

theorem Ends.pipesOk (h : Ends ft f0 f1 pi e0 e1) (hp : PipesOk ft pipes) :
    PipesOk (withEnds ft f0 f1 e0 e1) (update pipes pi ⟨true, true⟩) := by
  refine ⟨fun g hg => ?_, fun g hg => ?_, fun g g' hg hg' hpipe hw => ?_, fun g w hg => ?_⟩
  · by_cases hg0 : g = f0
    · rw [hg0, h.read_eq] at hg
      exact absurd hg h.read.2.2.2
    · by_cases hg1 : g = f1
      · rw [hg1, withEnds_write] at hg
        exact absurd hg h.write.2.2.2
      · rw [withEnds_of_ne hg0 hg1] at hg ⊢
        exact hp.closed g hg
  · have hlt0 := h.lt0
    have hlt1 := h.lt1
    rw [withEnds_of_ne (by omega) (by omega)]
    exact hp.out g hg
  · rcases h.iff.mp ⟨hg, hpipe, hw⟩ with ⟨hx, hg₁⟩ | ⟨ht₁, hp₁, hw₁⟩
    · rcases h.iff.mp ⟨hg', rfl, rfl⟩ with ⟨_, hg₂⟩ | ⟨ht₂, hp₂, -⟩
      · exact hg₁.trans hg₂.symm
      · exact absurd (hp₂.trans hx) (h.fresh g' ht₂).2.2
    · rcases h.iff.mp ⟨hg', rfl, rfl⟩ with ⟨hx, _⟩ | ⟨ht₂, hp₂, hw₂⟩
      · exact absurd (hp₁.trans hx) (h.fresh g ht₁).2.2
      · exact hp.uniq g g' ht₁ ht₂ (hp₁.trans hp₂.symm) (hw₁.trans hw₂.symm)
  · simp only [h.iff]
    rcases h.type_iff.mp ⟨hg, rfl⟩ with ⟨hx, -⟩ | ⟨ht, hx⟩
    · rw [hx, update_self]
      refine ⟨fun _ => ⟨if w then f1 else f0, .inl ⟨rfl, rfl⟩⟩, fun _ => ?_⟩
      cases w <;> rfl
    · have hne := (h.fresh g ht).2.2
      rw [← hx, update_of_ne hne, hp.ends g w ht]
      refine exists_congr fun g' => ⟨.inr, fun h' => ?_⟩
      rcases h' with ⟨e, -⟩ | h'
      · exact absurd e hne
      · exact h'

theorem Ends.livePipes_eq (h : Ends ft f0 f1 pi e0 e1) (hp : PipesOk ft pipes) :
    (livePipes (withEnds ft f0 f1 e0 e1)).val = (livePipes ft).val + {pi} := by
  have hnot : pi ∉ livePipes ft := by
    rw [mem_livePipes hp]
    rintro ⟨g, ht, hx⟩
    exact (h.fresh g ht).2.2 hx
  have hins : livePipes (withEnds ft f0 f1 e0 e1) = insert pi (livePipes ft) := by
    ext x
    rw [mem_livePipes (h.pipesOk hp), mem_insert, mem_livePipes hp]
    simp only [h.type_iff]
    constructor
    · rintro ⟨g, ⟨hx, -⟩ | hg⟩
      · exact .inl hx
      · exact .inr ⟨g, hg⟩
    · rintro (hx | ⟨g, hg⟩)
      · exact ⟨f0, .inl ⟨hx, .inl rfl⟩⟩
      · exact ⟨g, .inr hg⟩
  rw [hins, insert_val_of_notMem hnot, ← Multiset.singleton_add, add_comm]

end NewPipe

section

variable (h : Inv T P k H)
include h

theorem pipealloc_spec : Sat pipealloc k (fun _ k' => Kept T P k H k') otherPanic := by
  unfold pipealloc
  refine (kfilealloc_spec h).bind fun r k₁ hr => ?_
  obtain ⟨hk₁, htaken₁⟩ := hr
  cases r with
  | none => exact hk₁
  | some f0 =>
    have ht₁ := htaken₁ f0 rfl
    refine (kfilealloc_spec hk₁.1).bind fun r k₂ hr => ?_
    obtain ⟨hk₂, htaken₂⟩ := hr
    have hkept := hk₁.trans hk₂
    cases r with
    | none =>
      rw [sat_bind]
      exact (fileclose_spec hk₂.1).imp fun _ k₃ h₃ => hkept.trans h₃
    | some f1 =>
      have ht₂ := htaken₂ f1 rfl
      rw [sat_bind, sat_vm, sat_kalloc]
      refine ⟨fun hnil => ?_, fun pi rest hcons => ?_⟩
      · simp only [sat_bind]
        refine (fileclose_spec hk₂.1).imp fun _ k₃ h₃ => ?_
        exact (fileclose_spec h₃.1).imp fun _ k₄ h₄ => (hkept.trans h₃).trans h₄
      · have hne : f0 ≠ f1 := by
          rintro rfl
          exact absurd (ht₁.ref.symm.trans ht₂.free) Nat.one_ne_zero
        -- both entries were free, and the page is new
        have hfresh : ∀ g, (k₂.ftable g).type = .pipe → g ≠ f0 ∧ g ≠ f1 ∧ (k₂.ftable g).pipe ≠ pi := by
          intro g ht
          have ht' : (k₁.ftable g).type = .pipe := (ht₂.type_eq g).symm.trans ht
          have ht'' : (k.ftable g).type = .pipe := (ht₁.type_eq g).symm.trans ht'
          refine ⟨fun e => ?_, fun e => ?_, fun e => ?_⟩
          · rw [e] at ht''
            exact h.pipes.closed f0 ht₁.free ht''
          · rw [e] at ht'
            exact hk₁.1.pipes.closed f1 ht₂.free ht'
          · have hmem : pi ∈ livePipes k₂.ftable := (mem_livePipes hk₂.1.pipes).mpr ⟨g, ht, e⟩
            refine hk₂.1.pool.not_free (x := pi) ?_ (by rw [hcons]; exact List.mem_cons_self)
            exact Multiset.mem_add.mpr (.inl (Multiset.mem_add.mpr (.inr hmem)))
        have href0 : (k₂.ftable f0).ref = 1 := by rw [ht₂.others f0 hne, ht₁.ref]
        have hends : Ends k₂.ftable f0 f1 pi
            { k₂.ftable f0 with type := .pipe, readable := true, writable := false, pipe := pi }
            { k₂.ftable f1 with type := .pipe, readable := false, writable := true, pipe := pi } :=
          ⟨ht₁.lt, ht₂.lt, hne, hfresh, ⟨rfl, rfl, rfl, by rw [href0]; decide⟩,
            ⟨rfl, rfl, rfl, by rw [ht₂.ref]; decide⟩⟩
        simp only [sat_bind, sat_modify, sat_pure, setFile, update_of_ne hne.symm]
        refine hkept.trans ⟨hk₂.1.files ?_ (hends.pipesOk hk₂.1.pipes), rfl, rfl⟩
        refine (kalloc_moves hcons ((livePipes k₂.ftable).val + H)).congr rfl ?_
        rw [← withEnds, hends.livePipes_eq hk₂.1.pipes]
        abel

theorem setProc_spec {f : Proc → Proc} (hf : ∀ p, SameProc p (f p)) :
    Sat (setProc i f) k (fun _ k' => Inv T P k' H) E := h.relabel_one (hf _)

theorem setOfile_spec {ofile : Ofile} :
    Sat (setOfile i ofile) k (fun _ k' => Inv T P k' H) E :=
  setProc_spec h fun _ => ⟨rfl, rfl, rfl, rfl⟩

theorem closeBoth_spec {rf wf : Nat} {ofile : Ofile} : Sat (do
        setOfile i ofile
        fileclose rf
        fileclose wf
        return (-1 : Int)) k (fun _ k' => Inv T P k' H) otherPanic := by
  simp only [sat_bind]
  refine (setOfile_spec h).imp fun _ k₁ h₁ => ?_
  refine (fileclose_spec h₁).imp fun _ k₂ h₂ => ?_
  exact (fileclose_spec h₂.1).imp fun _ k₃ h₃ => h₃.1

theorem copyout_keeps {pt va : Nat} {src : List UInt8} (hi : i < nproc)
    (hpt : (k.proc i).pagetable = some pt) :
    Sat (vm (copyout pt va src)) k (fun _ k' => Kept T P k H k') E := by
  obtain ⟨l, hs, -⟩ := (h.procs i hi).space pt hpt
  have hpool : Pool k.mem (pages l + tables k.mem 3 pt) := h.pool.mono (by
    rw [inUse_split hi, own, hpt, spacePages, hs.leafPages_eq, add_comm (pages l), add_assoc]
    exact le_trans (Multiset.le_add_left _ _) (Multiset.le_add_right _ _))
  rw [sat_vm]
  refine (copyout_spec hs hpool).imp fun _ m' hw => ?_
  rw [← hs.leafPages_eq] at hw
  exact ⟨h.write_user hi hpt hw, rfl, rfl⟩

theorem sysPipe_spec {fdarray : Nat} (hi : i < nproc) :
    Sat (sysPipe i fdarray) k (fun _ k' => Inv T P k' H) otherPanic := by
  unfold sysPipe
  refine (pipealloc_spec h).bind fun r k₁ h₁ => ?_
  cases r with
  | none => exact h₁.1
  | some ends =>
    obtain ⟨rf, wf⟩ := ends
    dsimp only
    rw [sat_bind, sat_get]
    cases fdalloc (k₁.proc i).ofile rf with
    | none =>
      simp only [sat_bind]
      refine (fileclose_spec h₁.1).imp fun _ k₂ h₂ => ?_
      exact (fileclose_spec h₂.1).imp fun _ k₃ h₃ => h₃.1
    | some r =>
      obtain ⟨fd0, ofile⟩ := r
      dsimp only
      refine (setOfile_spec h₁.1).bind fun _ k₂ h₂ => ?_
      rw [sat_bind, sat_get]
      cases fdalloc (k₂.proc i).ofile wf with
      | none => exact closeBoth_spec h₂
      | some r =>
        obtain ⟨fd1, ofile₂⟩ := r
        dsimp only
        refine (setOfile_spec h₂).bind fun _ k₃ h₃ => ?_
        rw [sat_bind, sat_get, sat_bind]
        refine sat_deref fun pt hpt => ?_
        refine (copyout_keeps h₃ hi hpt).bind fun r k₄ h₄ => ?_
        rw [sat_ite]
        refine ⟨fun _ => closeBoth_spec h₄.1, fun _ => ?_⟩
        rw [sat_bind]
        have hpt₄ : (k₄.proc i).pagetable = some pt := by rw [h₄.2.1]; exact hpt
        refine (copyout_keeps h₄.1 hi hpt₄).imp fun r k₅ h₅ => ?_
        rw [sat_ite]
        exact ⟨fun _ => closeBoth_spec h₅.1, fun _ => h₅.1⟩

theorem sysClose_spec {fd : Int} :
    Sat (sysClose i fd) k (fun _ k' => Inv T P k' H) otherPanic := by
  unfold sysClose
  rw [sat_bind, sat_get]
  cases argfd (k.proc i).ofile fd with
  | none => exact h
  | some r =>
    dsimp only
    rw [sat_bind]
    refine Sat.imp (setProc_spec h fun p => ?_) fun _ k₁ h₁ => ?_
    · exact ⟨rfl, rfl, rfl, rfl⟩
    · rw [sat_bind]
      exact (fileclose_spec h₁).imp fun _ k₂ h₂ => h₂.1

theorem sysDup_spec {fd : Int} :
    Sat (sysDup i fd) k (fun _ k' => Inv T P k' H) otherPanic := by
  unfold sysDup
  rw [sat_bind, sat_get]
  cases argfd (k.proc i).ofile fd with
  | none => exact h
  | some r =>
    dsimp only
    rw [sat_bind, sat_get]
    cases fdalloc (k.proc i).ofile r.2 with
    | none => exact h
    | some r' =>
      dsimp only
      refine (setOfile_spec h).bind fun _ k₁ h₁ => ?_
      rw [sat_bind]
      exact (kfiledup_spec h₁).imp fun _ k₂ h₂ => h₂.1.1

end

end Xv6Armv8.Kernel
