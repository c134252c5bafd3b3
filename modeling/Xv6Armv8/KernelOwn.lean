import Xv6Armv8.ExecLoad
import Xv6Armv8.KernelModel

/-! Which page belongs to whom. A process owns its kernel stack, the pages of its table and the pages the
table maps; a pipe in use is a page; the rings of the disk are three. The invariant says that these, the
pages a call holds on the way and the free list are together the pages the allocator was given, each once.
It carries along what the CPUs have cached: as long as no call takes a page away from its own live table,
every cached translation leads to a page of the process that runs. -/

namespace Xv6Armv8.Kernel

open Spec Vm FileTable Function Finset

/-! ### Owners -/

def stackPages : Option Nat → Multiset Nat
  | none => 0
  | some ks => {ks}

/-- The pages of a table and the pages it maps. -/
def spacePages (m : Mem) : Option Nat → Multiset Nat
  | none => 0
  | some pt => tables m 3 pt + leafPages m pt

/-- The pages of a process. -/
def own (m : Mem) (p : Proc) : Multiset Nat := stackPages p.kstack + spacePages m p.pagetable

/-- The pipes that an open file refers to. -/
def livePipes (ft : Ftable) : Finset Nat :=
  ((Finset.range nfile).filter fun f => (ft f).type = .pipe).image fun f => (ft f).pipe

/-- All pages in use, with their multiplicity. -/
def inUse (k : Machine) : Multiset Nat :=
  ↑k.virtio + ∑ i ∈ Finset.range nproc, own k.mem (k.proc i) + (livePipes k.ftable).val

/-- The pages that the process `i` does not own. -/
def others (k : Machine) (i : Nat) : Multiset Nat :=
  ↑k.virtio + ∑ j ∈ (Finset.range nproc).erase i, own k.mem (k.proc j) + (livePipes k.ftable).val

theorem inUse_split {k : Machine} {i : Nat} (hi : i < nproc) :
    inUse k = own k.mem (k.proc i) + others k i := by
  rw [inUse, others, ← add_sum_erase _ _ (mem_range.mpr hi), add_left_comm, add_assoc]

structure ProcOk (m : Mem) (p : Proc) : Prop where
  space : ∀ pt, p.pagetable = some pt → ∃ l, Space m pt l ∧ pgCount p.size = l.length
  null : p.pagetable = none → p.size = 0
  unused : p.state = .unused → p.kstack = none ∧ p.pagetable = none
  live : p.state ≠ .unused → p.state ≠ .used → p.kstack.isSome ∧ p.pagetable.isSome

/-- The end of a pipe that `w` says. -/
def Pipe.isOpen (p : Pipe) (w : Bool) : Bool := if w then p.writeopen else p.readopen

/-- An end of a pipe is open just when a file refers to it, and no two files do. -/
structure PipesOk (ft : Ftable) (pipes : Nat → Pipe) : Prop where
  closed : ∀ f, (ft f).ref = 0 → (ft f).type ≠ .pipe
  out : ∀ f, nfile ≤ f → (ft f).ref = 0
  uniq : ∀ f g, (ft f).type = .pipe → (ft g).type = .pipe → (ft f).pipe = (ft g).pipe →
    (ft f).writable = (ft g).writable → f = g
  ends : ∀ f w, (ft f).type = .pipe → ((pipes (ft f).pipe).isOpen w = true ↔
    ∃ g, (ft g).type = .pipe ∧ (ft g).pipe = (ft f).pipe ∧ (ft g).writable = w)

/-- `TTBR0` is the table of the process and the TLB has only its pages. -/
structure TlbOk (m : Mem) (p : Proc) (cpu : Cpu) : Prop where
  ttbr0 : ∀ pt, p.pagetable = some pt → cpu.ttbr0 = v2p pt
  tlb : ∀ pt, p.pagetable = some pt → ∀ x ∈ cpu.tlb, ptePage x.2 ∈ leafPages m pt

/-- The pages in use, the pages `H` that a call holds and the free pages are the pages `T`. `P` says
whether the translation caches are tracked. -/
structure Inv (T : Multiset Nat) (P : Prop) (k : Machine) (H : Multiset Nat) : Prop where
  eq : inUse k + H + ↑k.mem.freelist = T
  nodup : T.Nodup
  valid : ∀ x ∈ T, ValidPage x
  lo : kernBase ≤ k.mem.kend
  hi : k.mem.kend ≤ kernBase + phyStop
  procs : ∀ i, i < nproc → ProcOk k.mem (k.proc i)
  pipes : PipesOk k.ftable k.pipes
  run : ∀ c i, (k.cpu c).proc = some i → i < nproc ∧ (k.proc i).state = .running
  inj : ∀ c c' i, (k.cpu c).proc = some i → (k.cpu c').proc = some i → c = c'
  tlb : P → ∀ c i, (k.cpu c).proc = some i → TlbOk k.mem (k.proc i) (k.cpu c)

variable {T H H' A B : Multiset Nat} {P : Prop} {k k' : Machine} {m m' : Mem} {p p' : Proc} {i c : Nat}

theorem Inv.pool (h : Inv T P k H) : Pool k.mem (inUse k + H) where
  nodup := by rw [h.eq]; exact h.nodup
  valid := by rw [h.eq]; exact h.valid
  lo := h.lo
  hi := h.hi

theorem leafPages_congr {pt : Nat} (h : ∀ x ∈ tables m 3 pt, m'.ram x = m.ram x) :
    leafPages m' pt = leafPages m pt :=
  by
    rw [leafPages_eq_sum, leafPages_eq_sum]
    exact sum_congr rfl fun k _ => by rw [entry_congr h]

theorem mem_own_of_tables {pt x : Nat} (hpt : p.pagetable = some pt) (hx : x ∈ tables m 3 pt) :
    x ∈ own m p := by
  rw [own, hpt, spacePages]
  exact Multiset.mem_add.mpr (.inr (Multiset.mem_add.mpr (.inl hx)))

theorem own_congr (h : ∀ pt, p.pagetable = some pt → ∀ x ∈ tables m 3 pt, m'.ram x = m.ram x) :
    own m' p = own m p := by
  unfold own
  cases hpt : p.pagetable with
  | none => rfl
  | some pt => rw [spacePages, spacePages, tables_congr (h pt hpt), leafPages_congr (h pt hpt)]

theorem ProcOk.congr (hp : ProcOk m p)
    (h : ∀ pt, p.pagetable = some pt → ∀ x ∈ tables m 3 pt, m'.ram x = m.ram x) : ProcOk m' p where
  space := fun pt hpt => by
    obtain ⟨l, hs, hl⟩ := hp.space pt hpt
    exact ⟨l, hs.congr (h pt hpt), hl⟩
  null := hp.null
  unused := hp.unused
  live := hp.live

theorem TlbOk.congr {cpu : Cpu} (hp : TlbOk m p cpu)
    (h : ∀ pt, p.pagetable = some pt → ∀ x ∈ tables m 3 pt, m'.ram x = m.ram x) : TlbOk m' p cpu where
  ttbr0 := hp.ttbr0
  tlb := fun pt hpt x hx => by
    rw [leafPages_congr (h pt hpt)]
    exact hp.tlb pt hpt x hx

/-! ### Changes of one owner -/

section

variable (h : Inv T P k H) (hi : i < nproc)
include h hi

theorem Inv.keeps_other
    (hmv : Moves k.mem m' (own k.mem (k.proc i) + H) B) {j : Nat} (hj : j < nproc) (hne : j ≠ i) :
    ∀ pt, (k.proc j).pagetable = some pt → ∀ x ∈ tables k.mem 3 pt, m'.ram x = k.mem.ram x := by
  intro pt hpt x hx
  have hpool : Pool k.mem (own k.mem (k.proc i) + H + others k i) :=
    h.pool.congr (by rw [inUse_split hi]; abel)
  refine hmv.keeps hpool ?_
  have hmem : x ∈ own k.mem (k.proc j) := mem_own_of_tables hpt hx
  have hle : own k.mem (k.proc j) ≤ others k i := by
    refine le_trans ?_ (Multiset.le_add_right _ _)
    refine le_trans ?_ (Multiset.le_add_left _ _)
    exact single_le_sum (f := fun j => own k.mem (k.proc j)) (fun _ _ => Multiset.zero_le _)
      (mem_erase.mpr ⟨hne, mem_range.mpr hj⟩)
  exact Multiset.mem_of_le hle hmem

theorem Inv.sum_others
    (hmv : Moves k.mem m' (own k.mem (k.proc i) + H) B) :
    ∑ j ∈ (Finset.range nproc).erase i, own m' (Function.update k.proc i p' j) =
      ∑ j ∈ (Finset.range nproc).erase i, own k.mem (k.proc j) := by
  refine sum_congr rfl fun j hj => ?_
  obtain ⟨hne, hj⟩ := mem_erase.mp hj
  rw [update_of_ne hne]
  exact own_congr (h.keeps_other hi hmv (mem_range.mp hj) hne)

/-- **One process changes**: its pages and the pages held become its new pages and the pages held, and
the CPUs run what they ran or what their new state says. -/
theorem Inv.change {cpu' : Nat → Cpu}
    (hmv : Moves k.mem m' (own k.mem (k.proc i) + H) (own m' p' + H')) (hok : ProcOk m' p')
    (hrun : ∀ c j, (cpu' c).proc = some j → j < nproc ∧ (Function.update k.proc i p' j).state = .running)
    (hinj : ∀ c c' j, (cpu' c).proc = some j → (cpu' c').proc = some j → c = c')
    (htlb : P → ∀ c j, (cpu' c).proc = some j → TlbOk m' (Function.update k.proc i p' j) (cpu' c)) :
    Inv T P { k with mem := m', proc := Function.update k.proc i p', cpu := cpu' } H' where
  eq := by
    have hsplit : inUse { k with mem := m', proc := Function.update k.proc i p', cpu := cpu' } =
        own m' p' + others k i := by
      rw [inUse_split hi, others, others]
      simp only [update_self]
      rw [h.sum_others hi hmv]
    have heq := h.eq
    have hc := hmv.conserve
    rw [inUse_split hi] at heq
    rw [hsplit]
    calc own m' p' + others k i + H' + ↑m'.freelist
        = (own m' p' + H' + ↑m'.freelist) + others k i := by abel
      _ = (own k.mem (k.proc i) + H + ↑k.mem.freelist) + others k i := by rw [hc]
      _ = T := by rw [← heq]; abel
  nodup := h.nodup
  valid := h.valid
  lo := by
    rw [hmv.kend]
    exact h.lo
  hi := by
    rw [hmv.kend]
    exact h.hi
  procs := fun j hj => by
    by_cases hne : j = i
    · subst hne
      simpa only [update_self] using hok
    · simp only [update_of_ne hne]
      exact (h.procs j hj).congr (h.keeps_other hi hmv hj hne)
  pipes := h.pipes
  run := hrun
  inj := hinj
  tlb := htlb

theorem Inv.tlb_other
    (hmv : Moves k.mem m' (own k.mem (k.proc i) + H) B) (hP : P) {c j : Nat}
    (hc : (k.cpu c).proc = some j) (hne : j ≠ i) : TlbOk m' (Function.update k.proc i p' j) (k.cpu c) := by
  rw [update_of_ne hne]
  exact (h.tlb hP c j hc).congr (h.keeps_other hi hmv (h.run c j hc).1 hne)

theorem Inv.update
    (hmv : Moves k.mem m' (own k.mem (k.proc i) + H) (own m' p' + H')) (hok : ProcOk m' p')
    (hst : (k.proc i).state = .running → p'.state = .running)
    (htlb : P → (k.proc i).state = .running → ∀ pt, p'.pagetable = some pt →
      (k.proc i).pagetable = some pt ∧ ∀ x ∈ leafPages k.mem pt, x ∈ leafPages m' pt) :
    Inv T P { k with mem := m', proc := Function.update k.proc i p' } H' := by
  refine h.change hi hmv hok (fun c j hc => ?_) h.inj fun hP c j hc => ?_
  · obtain ⟨hj, hrun⟩ := h.run c j hc
    refine ⟨hj, ?_⟩
    by_cases hne : j = i
    · subst hne
      simpa only [update_self] using hst hrun
    · simpa only [update_of_ne hne] using hrun
  · obtain ⟨hj, hrun⟩ := h.run c j hc
    by_cases hne : j = i
    · subst hne
      have hold := h.tlb hP c j hc
      simp only [update_self]
      exact ⟨fun pt hpt => hold.ttbr0 pt (htlb hP hrun pt hpt).1, fun pt hpt x hx =>
        (htlb hP hrun pt hpt).2 _ (hold.tlb pt (htlb hP hrun pt hpt).1 x hx)⟩
    · exact h.tlb_other hi hmv hP hc hne

end

/-- What `Inv` reads of a process. -/
structure SameProc (p p' : Proc) : Prop where
  state : p'.state = p.state
  kstack : p'.kstack = p.kstack
  pagetable : p'.pagetable = p.pagetable
  size : p'.size = p.size

theorem SameProc.own_eq (h : SameProc p p') : own m p' = own m p := by
  rw [own, own, h.kstack, h.pagetable]

theorem SameProc.ok (h : SameProc p p') (hp : ProcOk m p) : ProcOk m p' where
  space := by rw [h.pagetable, h.size]; exact hp.space
  null := by rw [h.pagetable, h.size]; exact hp.null
  unused := by rw [h.state, h.kstack, h.pagetable]; exact hp.unused
  live := by rw [h.state, h.kstack, h.pagetable]; exact hp.live

section

variable (h : Inv T P k H)
include h

theorem Inv.relabel {proc' : Nat → Proc} (hs : ∀ j, SameProc (k.proc j) (proc' j)) :
    Inv T P { k with proc := proc' } H where
  eq := by
    have hsum : ∑ i ∈ Finset.range nproc, own k.mem (proc' i) =
        ∑ i ∈ Finset.range nproc, own k.mem (k.proc i) := sum_congr rfl fun j _ => (hs j).own_eq
    rw [← h.eq, inUse, inUse]
    simp only [hsum]
  nodup := h.nodup
  valid := h.valid
  lo := h.lo
  hi := h.hi
  procs := fun j hj => (hs j).ok (h.procs j hj)
  pipes := h.pipes
  run := fun c j hc => by
    obtain ⟨hj, hrun⟩ := h.run c j hc
    exact ⟨hj, (hs j).state.trans hrun⟩
  inj := h.inj
  tlb := fun hP c j hc => by
    have hold := h.tlb hP c j hc
    have hpt := (hs j).pagetable
    refine ⟨fun pt => ?_, fun pt => ?_⟩
    · show (proc' j).pagetable = some pt → _
      rw [hpt]
      exact hold.ttbr0 pt
    · show (proc' j).pagetable = some pt → _
      rw [hpt]
      exact hold.tlb pt

theorem Inv.relabel_one (hs : SameProc (k.proc i) p') :
    Inv T P { k with proc := Function.update k.proc i p' } H :=
  h.relabel fun j => by
    by_cases hj : j = i
    · subst hj
      rwa [update_self]
    · rw [update_of_ne hj]
      exact ⟨rfl, rfl, rfl, rfl⟩

theorem Inv.counters (n j : Nat) : Inv T P { k with nextpid := n, initproc := j } H :=
  ⟨h.eq, h.nodup, h.valid, h.lo, h.hi, h.procs, h.pipes, h.run, h.inj, h.tlb⟩

theorem Inv.write (hi : i < nproc) (hw : Written k.mem m' A) (hA : A ≤ own k.mem (k.proc i))
    (hA' : ∀ pt, (k.proc i).pagetable = some pt → A + tables k.mem 3 pt ≤ own k.mem (k.proc i)) :
    Inv T P { k with mem := m' } H := by
  have hpool : Pool k.mem (own k.mem (k.proc i)) :=
    h.pool.mono (by
      rw [inUse_split hi, add_assoc]
      exact Multiset.le_add_right _ _)
  have hsame : ∀ pt, (k.proc i).pagetable = some pt → ∀ x ∈ tables k.mem 3 pt, m'.ram x = k.mem.ram x :=
    fun pt hpt x hx => hw.frame x ((hpool.mono (hA' pt hpt)).disjoint hx)
  have hmv : Moves k.mem m' (own k.mem (k.proc i) + H) (own m' (k.proc i) + H) :=
    (hw.mono hA).moves.add H |>.congr rfl (by rw [own_congr hsame])
  have hup := h.update hi hmv ((h.procs i hi).congr hsame) id fun _ _ pt hpt =>
    ⟨hpt, fun x hx => by rwa [leafPages_congr (hsame pt hpt)]⟩
  rwa [update_eq_self] at hup

theorem Inv.write_kstack {ks : Nat} (hi : i < nproc)
    (hks : (k.proc i).kstack = some ks) (hw : Written k.mem m' {ks}) : Inv T P { k with mem := m' } H := by
  have hown : own k.mem (k.proc i) = {ks} + spacePages k.mem (k.proc i).pagetable := by
    rw [own, hks, stackPages]
  refine h.write hi hw (by rw [hown]; exact Multiset.le_add_right _ _) fun pt hpt => ?_
  rw [hown, hpt, spacePages]
  exact add_le_add le_rfl (Multiset.le_add_right _ _)

theorem Inv.write_user {pt : Nat} (hi : i < nproc)
    (hpt : (k.proc i).pagetable = some pt) (hw : Written k.mem m' (leafPages k.mem pt)) :
    Inv T P { k with mem := m' } H := by
  have hown : own k.mem (k.proc i) =
      stackPages (k.proc i).kstack + (tables k.mem 3 pt + leafPages k.mem pt) := by
    rw [own, hpt, spacePages]
  refine h.write hi hw ?_ fun pt' hpt' => ?_
  · rw [hown, ← add_assoc]
    exact Multiset.le_add_left _ _
  · cases hpt.symm.trans hpt'
    rw [hown, add_comm (leafPages k.mem pt)]
    exact Multiset.le_add_left _ _

/-! ### Files and pipes -/

theorem Inv.files {ft : Ftable} {pipes' : Nat → Pipe}
    (hmv : Moves k.mem m' ((livePipes k.ftable).val + H) ((livePipes ft).val + H')) (hp : PipesOk ft pipes') :
    Inv T P { k with mem := m', ftable := ft, pipes := pipes' } H' := by
  have hpool : Pool k.mem ((livePipes k.ftable).val + H +
      (↑k.virtio + ∑ i ∈ Finset.range nproc, own k.mem (k.proc i))) :=
    h.pool.congr (by rw [inUse]; abel)
  have hsame : ∀ j, j < nproc → ∀ pt, (k.proc j).pagetable = some pt →
      ∀ x ∈ tables k.mem 3 pt, m'.ram x = k.mem.ram x := by
    intro j hj pt hpt x hx
    refine hmv.keeps hpool (Multiset.mem_add.mpr (.inr ?_))
    have hle := single_le_sum (f := fun j => own k.mem (k.proc j))
      (fun _ _ => Multiset.zero_le _) (mem_range.mpr hj)
    exact Multiset.mem_of_le hle (mem_own_of_tables hpt hx)
  have hsum : ∑ i ∈ Finset.range nproc, own m' (k.proc i) = ∑ i ∈ Finset.range nproc, own k.mem (k.proc i) :=
    sum_congr rfl fun j hj => own_congr (hsame j (mem_range.mp hj))
  refine ⟨?_, h.nodup, h.valid, by rw [hmv.kend]; exact h.lo, by rw [hmv.kend]; exact h.hi,
    fun j hj => (h.procs j hj).congr (hsame j hj), hp, h.run, h.inj, fun hP c j hc => ?_⟩
  · have hc := hmv.conserve
    rw [← h.eq, inUse, inUse]
    simp only [hsum]
    generalize ∑ i ∈ Finset.range nproc, own k.mem (k.proc i) = S
    calc ↑k.virtio + S + (livePipes ft).val + H' + ↑m'.freelist
        = ↑k.virtio + S + ((livePipes ft).val + H' + ↑m'.freelist) := by abel
      _ = ↑k.virtio + S + ((livePipes k.ftable).val + H + ↑k.mem.freelist) := by rw [hc]
      _ = _ := by abel
  · exact (h.tlb hP c j hc).congr (hsame j (h.run c j hc).1)

theorem Inv.ftable {ft : Ftable}
    (hs : ∀ f, (ft f).type = .pipe ∨ (k.ftable f).type = .pipe →
      (ft f).type = (k.ftable f).type ∧ (ft f).pipe = (k.ftable f).pipe ∧
        (ft f).writable = (k.ftable f).writable)
    (hc : ∀ f, (ft f).ref = 0 → (ft f).type ≠ .pipe) (ho : ∀ f, nfile ≤ f → (ft f).ref = 0) :
    Inv T P { k with ftable := ft } H := by
  have hiff : ∀ f, (ft f).type = .pipe ↔ (k.ftable f).type = .pipe := fun f =>
    ⟨fun hf => (hs f (.inl hf)).1.symm.trans hf, fun hf => (hs f (.inr hf)).1.trans hf⟩
  have hlive : livePipes ft = livePipes k.ftable := by
    unfold livePipes
    rw [filter_congr fun f _ => hiff f]
    exact image_congr fun f hf => (hs f (.inr (mem_filter.mp hf).2)).2.1
  have hok : PipesOk ft k.pipes := by
    refine ⟨hc, ho, fun f g hf hg hpipe hw => ?_, fun f w hf => ?_⟩
    · have hf' := hs f (.inl hf)
      have hg' := hs g (.inl hg)
      exact h.pipes.uniq f g ((hiff f).mp hf) ((hiff g).mp hg) (by rw [← hf'.2.1, hpipe, hg'.2.1])
        (by rw [← hf'.2.2, hw, hg'.2.2])
    · rw [(hs f (.inl hf)).2.1, h.pipes.ends f w ((hiff f).mp hf)]
      constructor
      · rintro ⟨g, hg, hpipe, hw⟩
        exact ⟨g, (hiff g).mpr hg, (hs g (.inr hg)).2.1.trans hpipe, (hs g (.inr hg)).2.2.trans hw⟩
      · rintro ⟨g, hg, hpipe, hw⟩
        exact ⟨g, (hiff g).mp hg, (hs g (.inl hg)).2.1.symm.trans hpipe, (hs g (.inl hg)).2.2.symm.trans hw⟩
  exact h.files ((Moves.refl k.mem _).congr rfl (by rw [hlive])) hok

end

theorem mem_livePipes {ft : Ftable} {pipes' : Nat → Pipe} (h : PipesOk ft pipes') {x : Nat} :
    x ∈ livePipes ft ↔ ∃ f, (ft f).type = .pipe ∧ (ft f).pipe = x := by
  rw [livePipes, mem_image]
  constructor
  · rintro ⟨f, hf, hx⟩
    exact ⟨f, (mem_filter.mp hf).2, hx⟩
  · rintro ⟨f, hf, hx⟩
    refine ⟨f, mem_filter.mpr ⟨mem_range.mpr ?_, hf⟩, hx⟩
    by_contra hge
    exact h.closed f (h.out f (not_lt.mp hge)) hf

@[simp] theorem isOpen_shut (p : Pipe) (w w' : Bool) :
    (p.shut w).isOpen w' = if w' = w then false else p.isOpen w' := by
  cases w <;> cases w' <;> simp [Pipe.shut, Pipe.isOpen]

end Xv6Armv8.Kernel
